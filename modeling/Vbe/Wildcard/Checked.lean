import Vbe.Wildcard.Places

/-! The construction of a matcher with the turns of its loops counted and the bounds of its slices checked. There are always
turns enough, and no slice is out of bounds. -/
namespace Vbe.Wildcard

variable (u : Unicode)

/-- What a construction returns, unless it panics or has no turns left. -/
abbrev Checked := ExceptT PatternError Option

section Definitions

def Checked.returns {α : Type} (x : Except PatternError α) : Checked α := some x

/-- No result at all: a panic, or a loop that runs on. -/
def Checked.stuck {α : Type} : Checked α := (none : Option (Except PatternError α))

def checkedSlice (runes : List Rune) (low high : Int) : Checked (List Rune) :=
  if 0 ≤ low ∧ low ≤ high ∧ high ≤ runes.length then .returns (.ok ((runes.drop low.toNat).take (high - low).toNat)) else .stuck

def checkedIndexOf (s : RuneScanner) (ch : Rune) : Checked Int :=
  if s.eos then .returns (.ok (-1))
  else do
    let rest ← checkedSlice s.text s.pos s.text.length
    return indexOf rest ch

def checkedTurn (pattern : List Rune) (negatedSeq : Bool) (ch : Rune) (p : RuneScanner) : Checked (SeqToken × Rune × RuneScanner) := do
  let (ch,p) ← Checked.returns (readEscaped u pattern ch p)
  if p.peek u 0 = '-' ∧ p.peek u 1 ≠ ']' ∧ p.peek u 1 ≠ NUL then
    let (endCh,p) ← Checked.returns (readEscaped u pattern ((p.advance u).read u).1 ((p.advance u).read u).2)
    return (.runeRange ch endCh negatedSeq,p.read u)
  else if ch = '[' ∧ p.peek u 0 = ':' then
    let closingBracketIndex ← checkedIndexOf p ']'
    if closingBracketIndex = -1 then .returns (.error (.unterminated pattern))
    else if closingBracketIndex - 1 ≤ p.pos ∨ p.peek u (closingBracketIndex - 1) ≠ ':' then return (.rune ch,p.read u)
    else
      let own ← checkedSlice p.text (p.pos + 1) (closingBracketIndex + p.pos - 1)
      let name := own.map u.ToLower
      let p := {p with pos := p.pos + closingBracketIndex + 1}
      match className name with
      | none => .returns (.error (.unrecognized pattern name))
      | some own => return (.ofClass own p.ignoreCase,p.read u)
  else return (.rune ch,p.read u)

def checkedItems (pattern : List Rune) (negatedSeq : Bool) :
    Nat → Rune → RuneScanner → List SeqToken → Checked (Rune × RuneScanner × List SeqToken)
  | 0,_,_,_ => .stuck
  | turns + 1,ch,p,seq =>
    if ch = ']' ∨ ch = NUL then return (ch,p,seq)
    else do
      let (item,next,p) ← checkedTurn u pattern negatedSeq ch p
      checkedItems pattern negatedSeq turns next p (seq ++ [item])

def checkedSequence (turns : Nat) (pattern : List Rune) (p : RuneScanner) : Checked (Token × RuneScanner) := do
  let negatedSeq := (p.read u).1 = '!'
  let (ch,p,seq) ← checkedItems u pattern negatedSeq turns (afterOpening u p).1 (afterOpening u p).2 []
  if ch ≠ ']' then .returns (.error (.unterminated pattern)) else return (.seq seq negatedSeq,p)

def checkedSkipStars : Nat → RuneScanner → Checked RuneScanner
  | 0,_ => .stuck
  | turns + 1,p => if p.peek u 0 = '*' then checkedSkipStars turns (p.advance u) else return p

def checkedStars (turns : Nat) (p : RuneScanner) : Checked (Token × RuneScanner) :=
  if p.peek u 0 = '*' then do
    let prevCh := p.peek u (-2)
    let p ← checkedSkipStars u turns p
    if prevCh = NUL ∨ prevCh = '/' ∧ (p.peek u 0 = '/' ∨ p.eos) then return (.star true,p) else return (.star false,p)
  else return (.star false,p)

def checkedToken (turns : Nat) (pattern : List Rune) (p : RuneScanner) : Checked (Option (Token × RuneScanner)) :=
  let (ch,p) := p.read u
  if ch = NUL then return none
  else if ch = '\\' then
    if p.eos then .returns (.error (.endOfLine pattern)) else return some (.rune (p.read u).1,(p.read u).2)
  else if ch = '?' then return some (.anyChar,p)
  else if ch = '/' then return some (.dirSep,p)
  else if ch = '*' then some <$> checkedStars u turns p
  else if ch = '[' then some <$> checkedSequence u turns pattern p
  else return some (.rune ch,p)

/-- All loops have the same number of turns. -/
def checkedBody (all : Nat) (pattern : List Rune) : Nat → RuneScanner → List Token → Checked (List Token)
  | 0,_,_ => .stuck
  | turns + 1,p,result => do
    match ← checkedToken u all pattern p with
    | none => return result
    | some (token,p) => checkedBody all pattern turns p (result ++ [token])

def checkedSkipSpaces : Nat → RuneScanner → Checked RuneScanner
  | 0,_ => .stuck
  | turns + 1,p => if u.IsSpace (p.peek u 0) then checkedSkipSpaces turns (p.advance u) else return p

/-- The scanner without the separator at the end of its text. -/
def checkedCut (p : RuneScanner) : Checked RuneScanner :=
  if p.text.getLast? = some '/' then do
    let text ← checkedSlice p.text 0 (p.text.length - 1)
    return {p with text := text}
  else return p

def checkedMatcher (turns : Nat) (pattern : List Rune) (options : Options) : Checked WildcardMatcher := do
  let pattern := trim u pattern
  let args := {options with baseDir := trimBaseDir options.baseDir}
  let p ← checkedSkipSpaces u turns ⟨0,pattern,args.ignoreCase⟩
  let negated := p.peek u 0 = '!'
  let p := if negated then p.advance u else p
  let _ ← checkedIndexOf p '/'
  let leading := leadingTokens u pattern args.baseDir p
  let dirOnly := p.text.getLast? = some '/'
  let p ← checkedCut p
  let tokens ← checkedBody u turns pattern turns p leading
  return ⟨pattern,tokens,dirOnly,negated,args⟩

end Definitions

variable {u} {pattern : List Rune} {negatedSeq : Bool} {ch : Rune} {p : RuneScanner} {seq : List SeqToken}

theorem returns_bind {α β : Type} {x : Except PatternError α} {f : α → Checked β} {g : α → Except PatternError β}
    (same : ∀ a, x = .ok a → f a = .returns (g a)) : (Checked.returns x >>= f) = .returns (x.bind g) := by
  cases x with
  | error => rfl
  | ok a => exact same a rfl

theorem returned_bind {α β : Type} (a : α) (f : α → Checked β) : (Checked.returns (.ok a) >>= f) = f a := rfl

section Slices

theorem checkedSlice_inside {runes : List Rune} {low high : Int} (positive : 0 ≤ low) (order : low ≤ high)
    (inside : high ≤ runes.length) :
    checkedSlice runes low high = .returns (.ok ((runes.drop low.toNat).take (high - low).toNat)) := if_pos ⟨positive,order,inside⟩

theorem checkedIndexOf_returns (place : 0 ≤ p.pos) (ch : Rune) : checkedIndexOf p ch = .returns (.ok (p.indexOf ch)) := by
  rw [checkedIndexOf,RuneScanner.indexOf]
  split
  next => rfl
  next going =>
    have inside : p.pos ≤ p.text.length := by
      by_contra outside
      refine going (decide_eq_true ?_)
      omega
    rw [checkedSlice_inside place inside (Int.le_refl _),List.take_of_length_le]
    · rfl
    · rw [List.length_drop]
      omega

end Slices

section Turns

/-- The name of a class is cut out between two places of the text, the second not before the first. -/
theorem checkedTurn_returns (place : 0 < p.pos) (inside : p.pos ≤ p.text.length) :
    checkedTurn u pattern negatedSeq ch p = .returns (seqTurn u pattern negatedSeq ch p) := by
  rw [checkedTurn,seqTurn]
  refine returns_bind fun read given => ?_
  obtain ⟨ch,p'⟩ := read
  have onward := readEscaped_onward inside given
  have pos := onward.pos
  dsimp only
  split
  next => exact returns_bind fun _ _ => rfl
  next =>
    split
    next =>
      rw [checkedIndexOf_returns (by omega),returned_bind]
      split
      next => rfl
      next found =>
        split
        next => rfl
        next far =>
          obtain ⟨positive,bound⟩ := scanner_indexOf_bounds (by omega) found
          rw [not_or,Int.not_le] at far
          obtain ⟨beyond,-⟩ := far
          have width : p'.indexOf ']' + p'.pos - 1 - (p'.pos + 1) = p'.indexOf ']' - 2 := by omega
          rw [checkedSlice_inside (by omega) (by omega) (by omega),returned_bind,width]
          generalize ((p'.text.drop (p'.pos + 1).toNat).take (p'.indexOf ']' - 2).toNat).map u.ToLower = name
          cases className name with
          | none => rfl
          | some own => rfl
    next => rfl

/-- There are turns for all runes that are left. -/
theorem checkedItems_returns {turns turns' : Nat} (place : 0 < p.pos) (inside : p.pos ≤ p.text.length)
    (enough : p.text.length < p.pos + turns) (more : ch ≠ NUL → p.text.length + 1 < p.pos + turns)
    (enough' : ch ≠ NUL → p.text.length < p.pos + turns') :
    checkedItems u pattern negatedSeq turns ch p seq = .returns (seqItems u pattern negatedSeq turns' ch p seq) := by
  induction turns generalizing turns' ch p seq with
  | zero => omega
  | succ turns ih =>
    rw [checkedItems]
    by_cases ended : ch = ']' ∨ ch = NUL
    · rw [if_pos ended,seqItems_ended ended]
      rfl
    · have few := more fun none => ended (.inr none)
      have few' := enough' fun none => ended (.inr none)
      cases turns' with
      | zero => omega
      | succ turns' =>
        rw [if_neg ended,seqItems_turn ended,checkedTurn_returns place inside]
        refine returns_bind fun a given => ?_
        obtain ⟨item,next,p'⟩ := a
        obtain ⟨onward,progress⟩ := seqTurn_onward (by omega) inside given
        have length := congrArg List.length onward.text
        have pos := onward.pos
        refine ih (by omega) onward.inside (by omega) (fun proper => ?_) fun proper => ?_
        · have := progress proper
          omega
        · have := progress proper
          omega

theorem checkedSequence_returns {turns : Nat} (place : 0 < p.pos) (inside : p.pos ≤ p.text.length) (enough : p.text.length < turns) :
    checkedSequence u turns pattern p = .returns (sequence u pattern p) := by
  obtain ⟨onward,progress⟩ := afterOpening_onward (u := u) inside
  have length := congrArg List.length onward.text
  have pos := onward.pos
  rw [checkedSequence,sequence_eq]
  dsimp only
  rw [checkedItems_returns (by omega) onward.inside (by omega) (fun _ => by omega) fun proper => ?_]
  · refine returns_bind fun a _ => ?_
    split
    next => rfl
    next => rfl
  · have := progress proper
    omega

theorem checkedSkipStars_returns {turns turns' : Nat} (inside : p.pos ≤ p.text.length) (enough : p.text.length < p.pos + turns)
    (enough' : p.text.length ≤ p.pos + turns') : checkedSkipStars u turns p = .returns (.ok (skipStars u turns' p)) := by
  induction turns generalizing turns' p with
  | zero => omega
  | succ turns ih =>
    rw [checkedSkipStars]
    split
    next star =>
      have proper : p.peek u 0 ≠ NUL := by
        rw [star]
        decide
      obtain ⟨moved,bound⟩ := advance_pos proper
      have length := congrArg List.length (advance_text (u := u) p)
      cases turns' with
      | zero => omega
      | succ turns' =>
        rw [skipStars,if_pos star]
        exact ih (by omega) (by omega) (by omega)
    next other =>
      cases turns' with
      | zero => rfl
      | succ turns' =>
        rw [skipStars,if_neg other]
        rfl

theorem checkedStars_returns {turns : Nat} (place : 0 ≤ p.pos) (inside : p.pos ≤ p.text.length) (enough : p.text.length < turns) :
    checkedStars u turns p = .returns (.ok (stars u p)) := by
  rw [checkedStars,stars]
  split
  next =>
    have skipped : checkedSkipStars u turns p = .returns (.ok (skipStars u p.text.length p)) :=
      checkedSkipStars_returns inside (by omega) (by omega)
    rw [skipped]
    dsimp only
    rw [returned_bind]
    split
    next => rfl
    next => rfl
  next => rfl

theorem checkedToken_returns {turns : Nat} (place : 0 ≤ p.pos) (inside : p.pos ≤ p.text.length) (enough : p.text.length < turns) :
    checkedToken u turns pattern p = .returns (nextToken u pattern p) := by
  have behind := advance_onward (u := u) inside
  have pos := behind.pos
  have length := congrArg List.length behind.text
  rw [checkedToken,nextToken]
  dsimp only
  split
  next => rfl
  next proper =>
    have moved := (advance_pos proper).1
    split
    next =>
      split
      next => rfl
      next => rfl
    next =>
      split
      next => rfl
      next =>
        split
        next => rfl
        next =>
          split
          next =>
            rw [RuneScanner.read,checkedStars_returns (by omega) behind.inside (by omega)]
            rfl
          next =>
            split
            next =>
              rw [RuneScanner.read,checkedSequence_returns (by omega) behind.inside (by omega)]
              cases sequence u pattern (p.advance u) with
              | error => rfl
              | ok => rfl
            next => rfl

theorem checkedBody_returns {all turns turns' : Nat} {result : List Token} (place : 0 ≤ p.pos) (inside : p.pos ≤ p.text.length)
    (every : p.text.length < all) (enough : p.text.length < p.pos + turns) (enough' : p.text.length < p.pos + turns') :
    checkedBody u all pattern turns p result = .returns (bodyTokens u pattern turns' p result) := by
  induction turns generalizing turns' p result with
  | zero => omega
  | succ turns ih =>
    cases turns' with
    | zero => omega
    | succ turns' =>
      rw [checkedBody,bodyTokens,checkedToken_returns place inside every]
      refine returns_bind fun a given => ?_
      cases a with
      | none => rfl
      | some read =>
        obtain ⟨onward,moved⟩ := nextToken_onward place inside given
        have length := congrArg List.length onward.text
        exact ih (by omega) onward.inside (by omega) (by omega) (by omega)

theorem checkedSkipSpaces_returns {turns turns' : Nat} (ends : u.IsSpace NUL = false) (inside : p.pos ≤ p.text.length)
    (enough : p.text.length < p.pos + turns) (enough' : p.text.length ≤ p.pos + turns') :
    checkedSkipSpaces u turns p = .returns (.ok (skipSpaces u turns' p)) := by
  induction turns generalizing turns' p with
  | zero => omega
  | succ turns ih =>
    rw [checkedSkipSpaces]
    split
    next space =>
      have proper : p.peek u 0 ≠ NUL := by
        intro none
        rw [none,ends] at space
        contradiction
      obtain ⟨moved,bound⟩ := advance_pos proper
      have length := congrArg List.length (advance_text (u := u) p)
      cases turns' with
      | zero => omega
      | succ turns' =>
        rw [skipSpaces,if_pos space]
        exact ih (by omega) (by omega) (by omega)
    next other =>
      cases turns' with
      | zero => rfl
      | succ turns' =>
        rw [skipSpaces,if_neg other]
        rfl

end Turns

section Matchers

theorem skipSpaces_onward {turns : Nat} (inside : p.pos ≤ p.text.length) : Onward p (skipSpaces u turns p) := by
  induction turns generalizing p with
  | zero => exact .refl inside
  | succ turns ih =>
    rw [skipSpaces]
    split
    next =>
      have first := advance_onward (u := u) inside
      exact first.trans (ih first.inside)
    next => exact .refl inside

/-- A separator at the end of the text is behind the scanner as long as that passes other runes. -/
def Before (p : RuneScanner) : Prop := p.text.getLast? = some '/' → p.pos < p.text.length

theorem advance_before (place : 0 ≤ p.pos) (before : Before p) (other : p.peek u 0 ≠ '/') : Before (p.advance u) := by
  intro last
  rw [advance_text] at last ⊢
  have inside := before last
  by_cases proper : p.peek u 0 = NUL
  · rw [RuneScanner.advance,if_neg (not_not_intro proper)]
    exact inside
  · obtain ⟨moved,bound⟩ := advance_pos proper
    rw [moved]
    by_contra reached
    refine other ?_
    have end' : (p.pos + 0).toNat = p.text.length - 1 := by omega
    rw [RuneScanner.peek,if_pos (by omega),end',List.getD_eq_getElem?_getD,← List.getLast?_eq_getElem?,last]
    exact fold_eq_slash.mpr rfl

theorem skipSpaces_before {turns : Nat} (plain : u.IsSpace '/' = false) (place : 0 ≤ p.pos) (inside : p.pos ≤ p.text.length)
    (before : Before p) : Before (skipSpaces u turns p) := by
  induction turns generalizing p with
  | zero => exact before
  | succ turns ih =>
    rw [skipSpaces]
    split
    next space =>
      have onward := advance_onward (u := u) inside
      refine ih (Int.le_trans place onward.pos) onward.inside (advance_before place before ?_)
      intro slash
      rw [slash,plain] at space
      contradiction
    next => exact before

theorem length_trim (pattern : List Rune) : (trim u pattern).length ≤ pattern.length := by
  rw [trim]
  split
  next =>
    rw [List.length_reverse]
    have first := (List.dropWhile_suffix (l := pattern) u.IsSpace).length_le
    have second := (List.dropWhile_suffix (l := (pattern.dropWhile u.IsSpace).reverse) u.IsSpace).length_le
    rw [List.length_reverse] at second
    omega
  next => exact Nat.le_refl _

/-- With more turns than runes the construction returns for every pattern. -/
theorem checkedMatcher_returns (plain : u.IsSpace '/' = false ∧ u.IsSpace NUL = false) {turns : Nat} (pattern : List Rune)
    (options : Options) (enough : pattern.length < turns) :
    checkedMatcher u turns pattern options = .returns (NewWildcardMatcher u pattern options) := by
  have size := length_trim (u := u) pattern
  rw [checkedMatcher,NewWildcardMatcher]
  dsimp only
  generalize trim u pattern = pattern at size ⊢
  have start : Before ⟨0,pattern,options.ignoreCase⟩ := by
    intro last
    rw [List.getLast?_eq_some_iff] at last
    obtain ⟨front,rfl⟩ := last
    simp
  have skipped : checkedSkipSpaces u turns ⟨0,pattern,options.ignoreCase⟩ =
      .returns (.ok (skipSpaces u pattern.length ⟨0,pattern,options.ignoreCase⟩)) :=
    checkedSkipSpaces_returns plain.2 (by simp) (by simp; omega) (by simp)
  have onward : Onward ⟨0,pattern,options.ignoreCase⟩ (skipSpaces u pattern.length ⟨0,pattern,options.ignoreCase⟩) :=
    skipSpaces_onward (by simp)
  have before : Before (skipSpaces u pattern.length ⟨0,pattern,options.ignoreCase⟩) :=
    skipSpaces_before plain.1 (Int.le_refl _) (by simp) start
  rw [skipped,returned_bind]
  generalize skipSpaces u pattern.length ⟨0,pattern,options.ignoreCase⟩ = p at onward before ⊢
  obtain ⟨q,own⟩ : ∃ q, q = if p.peek u 0 = '!' then p.advance u else p := ⟨_,rfl⟩
  rw [← own]
  have text : q.text = pattern := by
    rw [own]
    split
    next => exact (advance_text p).trans onward.text
    next => exact onward.text
  have inside : 0 ≤ q.pos ∧ q.pos ≤ q.text.length ∧ Before q := by
    have place := onward.pos
    rw [own]
    split
    next bang =>
      have moved := advance_onward (u := u) onward.inside
      refine ⟨Int.le_trans place moved.pos,moved.inside,advance_before place before ?_⟩
      rw [bang]
      decide
    next => exact ⟨place,onward.inside,before⟩
  obtain ⟨place,inside,before⟩ := inside
  rw [checkedIndexOf_returns place,returned_bind]
  have cut : checkedCut q = .returns (.ok (if q.text.getLast? = some '/' then {q with text := q.text.dropLast} else q)) := by
    rw [checkedCut]
    split
    next last =>
      have some := before last
      have width : ((q.text.length : Int) - 1 - 0).toNat = q.text.length - 1 := by omega
      rw [checkedSlice_inside (Int.le_refl _) (by omega) (by omega),returned_bind,width,List.dropLast_eq_take]
      rfl
    next => rfl
  rw [cut,returned_bind]
  obtain ⟨s,body⟩ : ∃ s, s = if q.text.getLast? = some '/' then {q with text := q.text.dropLast} else q := ⟨_,rfl⟩
  rw [← body]
  have bounds : 0 ≤ s.pos ∧ s.pos ≤ s.text.length ∧ s.text.length ≤ q.text.length := by
    rw [body]
    split
    next last =>
      have some := before last
      have shorter : q.text.dropLast.length = q.text.length - 1 := List.length_dropLast
      dsimp only
      omega
    next => exact ⟨place,inside,Nat.le_refl _⟩
  have length := congrArg List.length text
  have done (leading : List Token) :
      checkedBody u turns pattern turns s leading = .returns (bodyTokens u pattern (s.text.length + 1) s leading) :=
    checkedBody_returns bounds.1 bounds.2.1 (by omega) (by omega) (by omega)
  rw [done]
  exact returns_bind fun _ _ => rfl

end Matchers

end Vbe.Wildcard
