import Mathlib.Data.List.TakeDrop
import Vbe.Wildcard.Pattern

/-! Scanners at places of their texts. What is read depends on the runes that are left, and on the
place only where a sequence looks for the end of a class. -/
namespace Vbe.Wildcard

/-- The scanner has passed some runes, and the rest is left. -/
structure At (p : RuneScanner) (n : Nat) (rest : List Rune) : Prop where
  pos : p.pos = n
  inside : n ≤ p.text.length
  rest : p.text.drop n = rest

variable {u : Unicode}

@[simp] theorem advance_text (p : RuneScanner) : (p.advance u).text = p.text := by
  rw [RuneScanner.advance]
  split
  next => rfl
  next => rfl

@[simp] theorem advance_ignoreCase (p : RuneScanner) : (p.advance u).ignoreCase = p.ignoreCase := by
  rw [RuneScanner.advance]
  split
  next => rfl
  next => rfl

namespace At
variable {p : RuneScanner} {n : Nat} {c d : Rune} {rest : List Rune}

theorem start (text : List Rune) (ignoreCase : Bool) : At ⟨0,text,ignoreCase⟩ 0 text := ⟨rfl,Nat.zero_le _,rfl⟩

theorem length (place : At p n rest) : p.text.length = n + rest.length := by
  have inside := place.inside
  rw [← place.rest,List.length_drop]
  omega

theorem bounds (place : At p n rest) : 0 ≤ p.pos ∧ p.pos ≤ p.text.length := by
  have pos := place.pos
  have inside := place.inside
  omega

theorem rest_eq (place : At p n rest) : p.rest = rest := by
  rw [RuneScanner.rest,place.pos,Int.toNat_natCast,place.rest]

theorem peek (place : At p n rest) (i : Nat) : p.peek u i = fold u p.ignoreCase (rest.getD i NUL) := by
  have size := place.length
  have found : rest.getD i NUL = p.text.getD (n + i) NUL := by
    rw [← place.rest,List.getD_eq_getElem?_getD,List.getElem?_drop,← List.getD_eq_getElem?_getD]
  rw [RuneScanner.peek,place.pos,found]
  split
  next => rfl
  next outside =>
    rw [List.getD_eq_getElem?_getD,List.getElem?_eq_none (by omega),Option.getD_none]
    exact (fold_eq_NUL.mpr rfl).symm

theorem head (place : At p n (c :: rest)) : p.peek u 0 = fold u p.ignoreCase c := place.peek 0

theorem second (place : At p n (c :: d :: rest)) : p.peek u 1 = fold u p.ignoreCase d := place.peek 1

theorem ended (place : At p n []) : p.peek u 0 = NUL := (place.peek 0).trans (fold_eq_NUL.mpr rfl)

theorem advance (place : At p n (c :: rest)) (proper : c ≠ NUL) : At (p.advance u) (n + 1) rest := by
  have size := place.length
  have read : p.peek u 0 ≠ NUL := by
    rw [place.head]
    exact fun none => proper (fold_eq_NUL.mp none)
  rw [List.length_cons] at size
  rw [RuneScanner.advance,if_pos read]
  refine ⟨by rw [place.pos]; rfl,by dsimp only; omega,?_⟩
  rw [← List.drop_drop,place.rest,List.drop_one,List.tail_cons]

theorem jump (place : At p n rest) {k : Nat} (few : k ≤ rest.length) : At {p with pos := p.pos + k} (n + k) (rest.drop k) := by
  have size := place.length
  refine ⟨by rw [place.pos]; rfl,by dsimp only; omega,?_⟩
  rw [← place.rest,List.drop_drop]

theorem eos (place : At p n rest) : p.eos = rest.isEmpty := by
  have size := place.length
  rw [RuneScanner.eos,place.pos]
  cases rest with
  | nil => exact decide_eq_true (by simp at size; omega)
  | cons c rest => exact decide_eq_false (by simp at size; omega)

theorem indexOf (place : At p n rest) (ch : Rune) : p.indexOf ch = Wildcard.indexOf rest ch := by
  rw [RuneScanner.indexOf,place.eos,RuneScanner.rest,place.pos,Int.toNat_natCast,place.rest]
  cases rest with
  | nil => rfl
  | cons => rfl

end At

section Turns
variable (u)

/-- A turn of the loop over the items of a sequence: the item, the rune behind it and the scanner behind that. -/
def seqTurn (pattern : List Rune) (negatedSeq : Bool) (ch : Rune) (p : RuneScanner) :
    Except PatternError (SeqToken × Rune × RuneScanner) := do
  let (ch,p) ← readEscaped u pattern ch p
  if p.peek u 0 = '-' ∧ p.peek u 1 ≠ ']' ∧ p.peek u 1 ≠ NUL then
    let (endCh,p) ← readEscaped u pattern ((p.advance u).read u).1 ((p.advance u).read u).2
    .ok (.runeRange ch endCh negatedSeq,p.read u)
  else if ch = '[' ∧ p.peek u 0 = ':' then
    let closingBracketIndex := p.indexOf ']'
    if closingBracketIndex = -1 then .error (.unterminated pattern)
    else if closingBracketIndex - 1 ≤ p.pos ∨ p.peek u (closingBracketIndex - 1) ≠ ':' then .ok (.rune ch,p.read u)
    else
      let name := ((p.text.drop (p.pos + 1).toNat).take (closingBracketIndex - 2).toNat).map u.ToLower
      let p := {p with pos := p.pos + closingBracketIndex + 1}
      match className name with
      | none => .error (.unrecognized pattern name)
      | some own => .ok (.ofClass own p.ignoreCase,p.read u)
  else .ok (.rune ch,p.read u)

variable {u} {pattern : List Rune} {negatedSeq : Bool} {ch : Rune} {p : RuneScanner} {seq : List SeqToken} {turns : Nat}

theorem seqItems_ended (ended : ch = ']' ∨ ch = NUL) : seqItems u pattern negatedSeq turns ch p seq = .ok (ch,p,seq) := by
  cases turns with
  | zero => rfl
  | succ turns => rw [seqItems,if_pos ended]

theorem seqItems_turn (going : ¬ (ch = ']' ∨ ch = NUL)) : seqItems u pattern negatedSeq (turns + 1) ch p seq =
    (seqTurn u pattern negatedSeq ch p).bind fun item => seqItems u pattern negatedSeq turns item.2.1 item.2.2 (seq ++ [item.1]) := by
  rw [seqItems,if_neg going,seqTurn]
  simp only [bind]
  cases readEscaped u pattern ch p with
  | error => rfl
  | ok read =>
    obtain ⟨ch,p⟩ := read
    simp only [Except.bind]
    split
    next =>
      cases readEscaped u pattern ((p.advance u).read u).1 ((p.advance u).read u).2 with
      | error => rfl
      | ok => rfl
    next =>
      split
      next =>
        split
        next => rfl
        next =>
          split
          next => rfl
          next =>
            generalize ((p.text.drop (p.pos + 1).toNat).take (p.indexOf ']' - 2).toNat).map u.ToLower = name
            cases className name with
            | none => rfl
            | some own => simp only [RuneScanner.read,advance_ignoreCase]
      next => rfl

end Turns

section Indexes

/-- A rune is found inside of the runes, or not at all. -/
theorem indexOf_bounds (runes : List Rune) (ch : Rune) :
    indexOf runes ch = -1 ∨ 0 ≤ indexOf runes ch ∧ indexOf runes ch < runes.length := by
  rw [indexOf_eq]
  split
  next member => exact .inr ⟨by omega,by exact_mod_cast List.idxOf_lt_length_iff.mpr member⟩
  next => exact .inl rfl

theorem scanner_indexOf_bounds {p : RuneScanner} (place : 0 ≤ p.pos) {ch : Rune} (found : p.indexOf ch ≠ -1) :
    0 ≤ p.indexOf ch ∧ p.pos + p.indexOf ch < p.text.length := by
  rw [RuneScanner.indexOf] at found ⊢
  split at found
  next => contradiction
  next going =>
    rw [if_neg going]
    obtain ⟨positive,inside⟩ := (indexOf_bounds p.rest ch).resolve_left found
    have size : p.rest.length = p.text.length - p.pos.toNat := List.length_drop
    exact ⟨positive,by omega⟩

end Indexes

section Progress
variable {pattern : List Rune} {negatedSeq : Bool} {ch ch' : Rune} {p p' : RuneScanner}

/-- A scanner inside of its text has moved on in it. -/
structure Onward (p p' : RuneScanner) : Prop where
  text : p'.text = p.text
  ignoreCase : p'.ignoreCase = p.ignoreCase
  pos : p.pos ≤ p'.pos
  inside : p'.pos ≤ p'.text.length

theorem Onward.refl (inside : p.pos ≤ p.text.length) : Onward p p := ⟨rfl,rfl,Int.le_refl _,inside⟩

theorem Onward.trans {p'' : RuneScanner} (first : Onward p p') (second : Onward p' p'') : Onward p p'' :=
  ⟨second.text.trans first.text,second.ignoreCase.trans first.ignoreCase,Int.le_trans first.pos second.pos,second.inside⟩

theorem advance_pos (proper : p.peek u 0 ≠ NUL) : (p.advance u).pos = p.pos + 1 ∧ p.pos + 1 ≤ p.text.length := by
  rw [RuneScanner.advance,if_pos proper]
  refine ⟨rfl,?_⟩
  by_contra outside
  refine proper ?_
  rw [RuneScanner.peek,if_neg]
  omega

theorem advance_onward (inside : p.pos ≤ p.text.length) : Onward p (p.advance u) := by
  by_cases proper : p.peek u 0 = NUL
  · rw [RuneScanner.advance,if_neg (not_not_intro proper)]
    exact .refl inside
  · obtain ⟨pos,bound⟩ := advance_pos proper
    exact ⟨advance_text p,advance_ignoreCase p,by omega,by rw [pos,advance_text]; exact bound⟩

theorem readEscaped_onward (inside : p.pos ≤ p.text.length) (read : readEscaped u pattern ch p = .ok (ch',p')) : Onward p p' := by
  rw [readEscaped] at read
  split at read
  next =>
    split at read
    next => contradiction
    next =>
      cases read
      exact advance_onward inside
  next =>
    cases read
    exact .refl inside

/-- A turn that does not end at the end of the text moves on. -/
theorem seqTurn_onward {item : SeqToken} (place : 0 ≤ p.pos) (inside : p.pos ≤ p.text.length)
    (turn : seqTurn u pattern negatedSeq ch p = .ok (item,ch',p')) : Onward p p' ∧ (ch' ≠ NUL → p.pos < p'.pos) := by
  have finish {q : RuneScanner} (onward : Onward p q) : Onward p (q.advance u) ∧ (q.peek u 0 ≠ NUL → p.pos < (q.advance u).pos) := by
    refine ⟨onward.trans (advance_onward onward.inside),fun proper => ?_⟩
    rw [(advance_pos proper).1]
    have := onward.pos
    omega
  rw [seqTurn] at turn
  simp only [bind,Except.bind] at turn
  split at turn
  next => contradiction
  next read given =>
    have first := readEscaped_onward inside given
    split at turn
    next =>
      split at turn
      next => contradiction
      next read' given' =>
        cases turn
        have second := advance_onward (u := u) first.inside
        have third := advance_onward (u := u) second.inside
        exact finish (((first.trans second).trans third).trans (readEscaped_onward third.inside given'))
    next =>
      split at turn
      next =>
        split at turn
        next => contradiction
        next found =>
          split at turn
          next =>
            cases turn
            exact finish first
          next =>
            split at turn
            next => contradiction
            next =>
              cases turn
              obtain ⟨positive,bound⟩ := scanner_indexOf_bounds (Int.le_trans place first.pos) found
              refine finish (first.trans ⟨rfl,rfl,?_,?_⟩)
              · dsimp only
                omega
              · dsimp only
                omega
      next =>
        cases turn
        exact finish first

variable {seq seq' : List SeqToken} {token : Token} {turns : Nat}

theorem seqItems_onward (place : 0 ≤ p.pos) (inside : p.pos ≤ p.text.length)
    (read : seqItems u pattern negatedSeq turns ch p seq = .ok (ch',p',seq')) : Onward p p' := by
  induction turns generalizing ch p seq with
  | zero =>
    cases read
    exact .refl inside
  | succ turns ih =>
    by_cases ended : ch = ']' ∨ ch = NUL
    · rw [seqItems_ended ended] at read
      cases read
      exact .refl inside
    · rw [seqItems_turn ended] at read
      cases turn : seqTurn u pattern negatedSeq ch p with
      | error =>
        rw [turn] at read
        contradiction
      | ok item =>
        rw [turn] at read
        have first := (seqTurn_onward place inside turn).1
        exact first.trans (ih (Int.le_trans place first.pos) first.inside read)

/-- The rune and the scanner behind the opening of a sequence, which may be negated. -/
def afterOpening (u : Unicode) (p : RuneScanner) : Rune × RuneScanner :=
  if (p.read u).1 = '!' then (p.advance u).read u else p.read u

theorem afterOpening_onward (inside : p.pos ≤ p.text.length) : Onward p (afterOpening u p).2 ∧
    ((afterOpening u p).1 ≠ NUL → p.pos < (afterOpening u p).2.pos) := by
  have first := advance_onward (u := u) inside
  rw [afterOpening]
  split
  next bang =>
    have proper : p.peek u 0 ≠ NUL := by
      rw [show p.peek u 0 = '!' from bang]
      decide
    have second := advance_onward (u := u) first.inside
    refine ⟨first.trans second,fun _ => ?_⟩
    have moved := (advance_pos proper).1
    have := second.pos
    dsimp only [RuneScanner.read]
    omega
  next =>
    refine ⟨first,fun proper => ?_⟩
    rw [RuneScanner.read,(advance_pos proper).1]
    omega

theorem sequence_eq : sequence u pattern p =
    (seqItems u pattern (decide ((p.read u).1 = '!')) p.text.length (afterOpening u p).1 (afterOpening u p).2 []).bind fun read =>
      if read.1 ≠ ']' then .error (.unterminated pattern) else .ok (.seq read.2.2 (decide ((p.read u).1 = '!')),read.2.1) := by
  have text : (afterOpening u p).2.text = p.text := by
    rw [afterOpening]
    split
    next => exact (advance_text _).trans (advance_text p)
    next => exact advance_text p
  rw [← text,sequence,afterOpening]
  by_cases bang : (p.read u).1 = '!'
  · simp only [bang,decide_true,if_true]
    rfl
  · simp only [bang,decide_false]
    rfl

theorem sequence_onward (place : 0 ≤ p.pos) (inside : p.pos ≤ p.text.length) (read : sequence u pattern p = .ok (token,p')) :
    Onward p p' := by
  have first := (afterOpening_onward (u := u) inside).1
  rw [sequence_eq] at read
  cases items : seqItems u pattern (decide ((p.read u).1 = '!')) p.text.length (afterOpening u p).1 (afterOpening u p).2 [] with
  | error =>
    rw [items] at read
    contradiction
  | ok own =>
    rw [items] at read
    simp only [Except.bind] at read
    split at read
    next => contradiction
    next =>
      cases read
      exact first.trans (seqItems_onward (Int.le_trans place first.pos) first.inside items)

theorem skipStars_onward (inside : p.pos ≤ p.text.length) : Onward p (skipStars u turns p) := by
  induction turns generalizing p with
  | zero => exact .refl inside
  | succ turns ih =>
    rw [skipStars]
    split
    next =>
      have first := advance_onward (u := u) inside
      exact first.trans (ih first.inside)
    next => exact .refl inside

theorem stars_onward (inside : p.pos ≤ p.text.length) : Onward p (stars u p).2 := by
  have skipped : Onward p (skipStars u p.text.length p) := skipStars_onward inside
  rw [stars]
  split
  next =>
    dsimp only
    split
    next => exact skipped
    next => exact skipped
  next => exact .refl inside

/-- A token is read from one rune at least. -/
theorem nextToken_onward (place : 0 ≤ p.pos) (inside : p.pos ≤ p.text.length)
    (read : nextToken u pattern p = .ok (some (token,p'))) : Onward p p' ∧ p.pos < p'.pos := by
  rw [nextToken] at read
  dsimp only at read
  split at read
  next => cases read
  next proper =>
    obtain ⟨moved,_⟩ := advance_pos proper
    have first := advance_onward (u := u) inside
    have beyond {q : RuneScanner} (onward : Onward (p.advance u) q) : Onward p q ∧ p.pos < q.pos := by
      have := onward.pos
      exact ⟨first.trans onward,by omega⟩
    split at read
    next =>
      split at read
      next => contradiction
      next =>
        simp only [Except.ok.injEq,Option.some.injEq,Prod.mk.injEq] at read
        obtain ⟨_,rfl⟩ := read
        exact beyond (advance_onward first.inside)
    next =>
      split at read
      next =>
        cases read
        exact beyond (.refl first.inside)
      next =>
        split at read
        next =>
          cases read
          exact beyond (.refl first.inside)
        next =>
          split at read
          next =>
            simp only [Except.ok.injEq,Option.some.injEq] at read
            have behind : p' = (stars u (p.advance u)).2 := by rw [show (stars u (p.advance u)) = (token,p') from read]
            rw [behind]
            exact beyond (stars_onward first.inside)
          next =>
            split at read
            next =>
              cases items : sequence u pattern (p.read u).2 with
              | error =>
                rw [items] at read
                contradiction
              | ok own =>
                rw [items] at read
                cases read
                exact beyond (sequence_onward (Int.le_trans place first.pos) first.inside items)
            next =>
              cases read
              exact beyond (.refl first.inside)

end Progress

end Vbe.Wildcard
