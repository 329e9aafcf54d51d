import Vbe.Wildcard.Formed
import Vbe.Wildcard.Places

/-! Scanners with the same runes left at different places. They read the same tokens as long as no class is found by only one of
them and every star they begin with has the same kind. -/
namespace Vbe.Wildcard

variable {u : Unicode}

section Twins

/-- Both readings fail, or both succeed with results that belong together. -/
inductive Alike {α β : Type} (good : α → β → Prop) : Except PatternError α → Except PatternError β → Prop
  | failed (e e' : PatternError) : Alike good (.error e) (.error e')
  | read {a : α} {b : β} (same : good a b) : Alike good (.ok a) (.ok b)

theorem Except.map_eq_bind {ε α β : Type} (f : α → β) (x : Except ε α) : x.map f = x.bind fun a => .ok (f a) := by
  cases x with
  | error => rfl
  | ok => rfl

theorem Alike.bind {α β γ δ : Type} {good : α → β → Prop} {good' : γ → δ → Prop} {x : Except PatternError α}
    {y : Except PatternError β} {f : α → Except PatternError γ} {g : β → Except PatternError δ} (alike : Alike good x y)
    (next : ∀ a b, x = .ok a → y = .ok b → good a b → Alike good' (f a) (g b)) : Alike good' (x.bind f) (y.bind g) := by
  cases alike with
  | failed e e' => exact .failed e e'
  | read same => exact next _ _ rfl rfl same

theorem Alike.weaken {α β : Type} {good good' : α → β → Prop} {x : Except PatternError α} {y : Except PatternError β}
    (alike : Alike good x y) (weaker : ∀ a b, good a b → good' a b) : Alike good' x y := by
  cases alike with
  | failed e e' => exact .failed e e'
  | read same => exact .read (weaker _ _ same)

/-- Two scanners with the same runes left, the second some places further. -/
structure Twin (d : Nat) (p q : RuneScanner) : Prop where
  ignoreCase : q.ignoreCase = p.ignoreCase
  places : ∃ n rest, At p n rest ∧ At q (n + d) rest

variable {pattern pattern' : List Rune} {negatedSeq : Bool} {ch : Rune} {d : Nat} {p q : RuneScanner}

namespace Twin

theorem pos (twin : Twin d p q) : 0 ≤ p.pos ∧ p.pos ≤ p.text.length ∧ q.pos = p.pos + d ∧ q.text.length = p.text.length + d := by
  obtain ⟨n,rest,left,right⟩ := twin.places
  have sizes := left.length
  have sizes' := right.length
  have place := left.pos
  have place' := right.pos
  omega

theorem peek (twin : Twin d p q) (i : Nat) : q.peek u i = p.peek u i := by
  obtain ⟨n,rest,left,right⟩ := twin.places
  rw [left.peek,right.peek,twin.ignoreCase]

theorem head (twin : Twin d p q) : q.peek u 0 = p.peek u 0 := twin.peek 0

theorem indexOf (twin : Twin d p q) (ch : Rune) : q.indexOf ch = p.indexOf ch := by
  obtain ⟨n,rest,left,right⟩ := twin.places
  rw [left.indexOf,right.indexOf]

theorem eos (twin : Twin d p q) : q.eos = p.eos := by
  obtain ⟨n,rest,left,right⟩ := twin.places
  rw [left.eos,right.eos]

theorem advance (twin : Twin d p q) : Twin d (p.advance u) (q.advance u) := by
  refine ⟨by rw [advance_ignoreCase,advance_ignoreCase,twin.ignoreCase],?_⟩
  by_cases proper : p.peek u 0 = NUL
  · rw [RuneScanner.advance,RuneScanner.advance,twin.head,if_neg (not_not_intro proper),if_neg (not_not_intro proper)]
    exact twin.places
  · obtain ⟨n,rest,left,right⟩ := twin.places
    cases rest with
    | nil => exact absurd left.ended proper
    | cons c rest =>
      have clean : c ≠ NUL := by
        rintro rfl
        exact proper (left.head.trans (fold_eq_NUL.mpr rfl))
      refine ⟨n + 1,rest,left.advance clean,?_⟩
      rw [Nat.add_right_comm]
      exact right.advance clean

theorem jump (twin : Twin d p q) {k : Int} (positive : 0 ≤ k) (few : p.pos + k ≤ p.text.length) :
    Twin d {p with pos := p.pos + k} {q with pos := q.pos + k} := by
  obtain ⟨n,rest,left,right⟩ := twin.places
  obtain ⟨k,rfl⟩ := Int.eq_ofNat_of_zero_le positive
  have place := left.pos
  have size := left.length
  have inside : k ≤ rest.length := by omega
  refine ⟨twin.ignoreCase,n + k,rest.drop k,left.jump inside,?_⟩
  rw [Nat.add_right_comm]
  exact right.jump inside

theorem slice (twin : Twin d p q) (k : Int) (positive : 0 ≤ k) : q.text.drop (q.pos + k).toNat = p.text.drop (p.pos + k).toNat := by
  obtain ⟨n,rest,left,right⟩ := twin.places
  obtain ⟨k,rfl⟩ := Int.eq_ofNat_of_zero_le positive
  have place : (p.pos + (k : Int)).toNat = n + k := by rw [left.pos]; rfl
  have place' : (q.pos + (k : Int)).toNat = n + d + k := by rw [right.pos]; rfl
  rw [place',← List.drop_drop,right.rest,place,← List.drop_drop,left.rest]

end Twin

/-- What is read is the same, and the scanners behind it are twins. -/
def Reads (d : Nat) (a b : Rune × RuneScanner) : Prop := b.1 = a.1 ∧ Twin d a.2 b.2

theorem Twin.read (twin : Twin d p q) : Reads d (p.read u) (q.read u) := ⟨twin.head,twin.advance⟩

theorem readEscaped_twin (twin : Twin d p q) : Alike (Reads d) (readEscaped u pattern ch p) (readEscaped u pattern' ch q) := by
  rw [readEscaped,readEscaped]
  split
  next =>
    rw [show (q.read u).1 = (p.read u).1 from twin.head]
    split
    next => exact .failed _ _
    next => exact .read twin.read
  next => exact .read ⟨rfl,twin⟩

/-- A class that a turn finds is found some places further as well. -/
def Unmoved (u : Unicode) (pattern : List Rune) (d : Nat) (ch : Rune) (p : RuneScanner) : Prop :=
  ∀ p', readEscaped u pattern ch p = .ok ('[',p') → p'.peek u 0 = ':' → p'.peek u (p'.indexOf ']' - 1) = ':' →
    p'.pos < p'.indexOf ']' - 1 → p'.pos + d < p'.indexOf ']' - 1

/-- Two scanners with the same runes left read the same item, unless only one of them is too far for a class. -/
theorem seqTurn_twin (twin : Twin d p q) (unmoved : Unmoved u pattern d ch p) :
    Alike (fun a b => b.1 = a.1 ∧ Reads d a.2 b.2) (seqTurn u pattern negatedSeq ch p) (seqTurn u pattern' negatedSeq ch q) := by
  rw [seqTurn,seqTurn]
  refine (readEscaped_twin twin).bind fun a b given _ same => ?_
  obtain ⟨ch,p⟩ := a
  obtain ⟨ch',q⟩ := b
  obtain ⟨rfl,twin⟩ := same
  dsimp only at twin given ⊢
  have next (item : SeqToken) : Alike (fun a b => b.1 = a.1 ∧ Reads d a.2 b.2)
      (.ok (item,p.read u) : Except PatternError (SeqToken × Rune × RuneScanner)) (.ok (item,q.read u)) := .read ⟨rfl,twin.read⟩
  rw [twin.head,show q.peek u 1 = p.peek u 1 from twin.peek 1,twin.indexOf]
  split
  next =>
    rw [show ((q.advance u).read u).1 = ((p.advance u).read u).1 from twin.advance.head]
    refine (readEscaped_twin twin.advance.advance).bind fun a b _ _ same => ?_
    obtain ⟨same,twin⟩ := same
    rw [same]
    exact .read ⟨rfl,twin.read⟩
  next =>
    split
    next bracket =>
      split
      next => exact .failed _ _
      next found =>
        obtain ⟨place,inside,further,size⟩ := twin.pos
        obtain ⟨positive,bound⟩ := scanner_indexOf_bounds place found
        have tests : q.pos < p.indexOf ']' - 1 ∧ q.peek u (p.indexOf ']' - 1) = ':' ↔
            p.pos < p.indexOf ']' - 1 ∧ p.peek u (p.indexOf ']' - 1) = ':' := by
          by_cases near : p.indexOf ']' - 1 ≤ p.pos
          · exact ⟨fun far => by omega,fun far => by omega⟩
          · obtain ⟨k,own⟩ := Int.eq_ofNat_of_zero_le (show 0 ≤ p.indexOf ']' - 1 by omega)
            have colon : q.peek u (p.indexOf ']' - 1) = p.peek u (p.indexOf ']' - 1) := by
              rw [own]
              exact twin.peek k
            rw [colon]
            refine ⟨fun far => ⟨by omega,far.2⟩,fun far => ⟨?_,far.2⟩⟩
            rw [further]
            exact unmoved p (bracket.1 ▸ given) bracket.2 far.2 far.1
        by_cases class' : p.pos < p.indexOf ']' - 1 ∧ p.peek u (p.indexOf ']' - 1) = ':'
        · have here : ¬ (p.indexOf ']' - 1 ≤ p.pos ∨ p.peek u (p.indexOf ']' - 1) ≠ ':') := by
            rintro (near | other)
            · omega
            · exact other class'.2
          have there : ¬ (p.indexOf ']' - 1 ≤ q.pos ∨ q.peek u (p.indexOf ']' - 1) ≠ ':') := by
            obtain ⟨far,colon⟩ := tests.mpr class'
            rintro (near | other)
            · omega
            · exact other colon
          rw [if_neg here,if_neg there,twin.slice 1 (by omega)]
          split
          next => exact .failed _ _
          next own _ =>
            have behind := twin.jump (k := p.indexOf ']' + 1) (by omega) (by omega)
            rw [← Int.add_assoc,← Int.add_assoc] at behind
            rw [twin.ignoreCase] at behind ⊢
            exact .read ⟨rfl,behind.read⟩
        · have here : p.indexOf ']' - 1 ≤ p.pos ∨ p.peek u (p.indexOf ']' - 1) ≠ ':' := by
            by_contra other
            rw [not_or,Int.not_le,not_not] at other
            exact class' other
          have there : p.indexOf ']' - 1 ≤ q.pos ∨ q.peek u (p.indexOf ']' - 1) ≠ ':' := by
            by_contra other
            rw [not_or,Int.not_le,not_not] at other
            exact class' (tests.mp other)
          rw [if_pos here,if_pos there]
          exact next _
    next => exact next _

/-- No turn loses a class some places further. -/
def SteadyItems (u : Unicode) (pattern : List Rune) (negatedSeq : Bool) (d : Nat) : Nat → Rune → RuneScanner → Prop
  | 0,_,_ => True
  | turns + 1,ch,p => ¬ (ch = ']' ∨ ch = NUL) → Unmoved u pattern d ch p ∧
      ∀ item next p', seqTurn u pattern negatedSeq ch p = .ok (item,next,p') → SteadyItems u pattern negatedSeq d turns next p'

theorem seqItems_twin {turns turns' : Nat} {seq : List SeqToken} (twin : Twin d p q)
    (enough : ch ≠ NUL → p.text.length < p.pos + turns) (enough' : ch ≠ NUL → q.text.length < q.pos + turns')
    (steady : SteadyItems u pattern negatedSeq d turns ch p) :
    Alike (fun a b => b.1 = a.1 ∧ Twin d a.2.1 b.2.1 ∧ b.2.2 = a.2.2) (seqItems u pattern negatedSeq turns ch p seq)
      (seqItems u pattern' negatedSeq turns' ch q seq) := by
  induction turns generalizing turns' ch p q seq with
  | zero =>
    have ended : ch = NUL := by
      by_contra proper
      have := enough proper
      have := twin.pos
      omega
    rw [seqItems_ended (.inr ended),seqItems_ended (.inr ended)]
    exact .read ⟨rfl,twin,rfl⟩
  | succ turns ih =>
    by_cases ended : ch = ']' ∨ ch = NUL
    · rw [seqItems_ended ended,seqItems_ended ended]
      exact .read ⟨rfl,twin,rfl⟩
    · have few := enough fun none => ended (.inr none)
      have few' := enough' fun none => ended (.inr none)
      obtain ⟨place,inside,further,size⟩ := twin.pos
      cases turns' with
      | zero => omega
      | succ turns' =>
        obtain ⟨unmoved,later⟩ := steady ended
        rw [seqItems_turn ended,seqItems_turn ended]
        refine (seqTurn_twin twin unmoved).bind fun a b given _ same => ?_
        obtain ⟨item,next,p'⟩ := a
        obtain ⟨item',next',q'⟩ := b
        obtain ⟨rfl,rfl,behind⟩ := same
        obtain ⟨onward,progress⟩ := seqTurn_onward place inside given
        obtain ⟨_,_,further',size'⟩ := behind.pos
        have same := congrArg List.length onward.text
        dsimp only at behind further' size' ⊢
        refine ih behind (fun proper => ?_) (fun proper => ?_) (later _ _ _ given)
        · have := progress proper
          omega
        · have := progress proper
          omega

theorem afterOpening_twin (twin : Twin d p q) : Reads d (afterOpening u p) (afterOpening u q) := by
  rw [afterOpening,afterOpening,show (q.read u).1 = (p.read u).1 from twin.head]
  split
  next => exact twin.advance.read
  next => exact twin.read

/-- No turn of the sequence loses a class some places further. -/
def SteadySequence (u : Unicode) (pattern : List Rune) (d : Nat) (p : RuneScanner) : Prop :=
  SteadyItems u pattern (decide ((p.read u).1 = '!')) d p.text.length (afterOpening u p).1 (afterOpening u p).2

theorem sequence_twin (twin : Twin d p q) (opened : 0 < p.pos) (steady : SteadySequence u pattern d p) :
    Alike (fun a b => b.1 = a.1 ∧ Twin d a.2 b.2) (sequence u pattern p) (sequence u pattern' q) := by
  obtain ⟨same,behind⟩ := afterOpening_twin (u := u) twin
  obtain ⟨place,inside,further,size⟩ := twin.pos
  obtain ⟨_,_,further',size'⟩ := behind.pos
  obtain ⟨onward,progress⟩ := afterOpening_onward (u := u) inside
  have length := congrArg List.length onward.text
  rw [sequence_eq,sequence_eq,show (q.read u).1 = (p.read u).1 from twin.head,same]
  refine (seqItems_twin behind (fun proper => ?_) (fun proper => ?_) steady).bind fun a b _ _ alike => ?_
  · have := progress proper
    omega
  · have := progress proper
    omega
  · obtain ⟨same,behind,items⟩ := alike
    rw [same,items]
    split
    next => exact .failed _ _
    next => exact .read ⟨rfl,behind⟩

theorem skipStars_twin {turns turns' : Nat} (twin : Twin d p q) (enough : p.text.length ≤ p.pos + turns)
    (enough' : q.text.length ≤ q.pos + turns') : Twin d (skipStars u turns p) (skipStars u turns' q) := by
  have none {turns : Nat} {p : RuneScanner} (other : p.peek u 0 ≠ '*') : skipStars u turns p = p := by
    cases turns with
    | zero => rfl
    | succ turns => rw [skipStars,if_neg other]
  induction turns generalizing turns' p q with
  | zero =>
    have ended : p.peek u 0 ≠ '*' := by
      intro star
      have proper : p.peek u 0 ≠ NUL := by
        rw [star]
        decide
      have := (advance_pos proper).2
      omega
    rw [none ended,none (twin.head (u := u) ▸ ended)]
    exact twin
  | succ turns ih =>
    by_cases star : p.peek u 0 = '*'
    · have proper : p.peek u 0 ≠ NUL := by
        rw [star]
        decide
      obtain ⟨moved,bound⟩ := advance_pos proper
      obtain ⟨place,inside,further,size⟩ := twin.pos
      obtain ⟨_,_,further',size'⟩ := (twin.advance (u := u)).pos
      have length := congrArg List.length (advance_text (u := u) p)
      cases turns' with
      | zero => omega
      | succ turns' =>
        rw [skipStars,if_pos star,skipStars,if_pos (twin.head.trans star)]
        exact ih twin.advance (by omega) (by omega)
    · rw [none star,none (twin.head (u := u) ▸ star)]
      exact twin

/-- The scanners behind a star are twins, whatever its kind. -/
theorem stars_twin (twin : Twin d p q) : Twin d (stars u p).2 (stars u q).2 := by
  have skipped : Twin d (skipStars u p.text.length p) (skipStars u q.text.length q) := by
    obtain ⟨place,inside,further,size⟩ := twin.pos
    exact skipStars_twin twin (by omega) (by omega)
  have both {p : RuneScanner} (star : p.peek u 0 = '*') : (stars u p).2 = skipStars u p.text.length p := by
    rw [stars,if_pos star]
    dsimp only
    split
    next => rfl
    next => rfl
  by_cases star : p.peek u 0 = '*'
  · rw [both star,both (twin.head.trans star)]
    exact skipped
  · rw [stars,stars,if_neg star,if_neg (twin.head (u := u) ▸ star)]
    exact twin

/-- Behind the same rune a star has the same kind at both places. -/
theorem stars_kind (twin : Twin d p q) (before : q.peek u (-2) = p.peek u (-2)) : (stars u q).1 = (stars u p).1 := by
  have skipped : Twin d (skipStars u p.text.length p) (skipStars u q.text.length q) := by
    obtain ⟨place,inside,further,size⟩ := twin.pos
    exact skipStars_twin twin (by omega) (by omega)
  rw [stars,stars,twin.head,before]
  split
  next =>
    dsimp only
    rw [skipped.head,skipped.eos]
    split
    next => rfl
    next => rfl
  next => rfl

/-- Both scanners read no token, or the same. -/
inductive SameToken (d : Nat) : Option (Token × RuneScanner) → Option (Token × RuneScanner) → Prop
  | none : SameToken d none none
  | some {token : Token} {p q : RuneScanner} (twin : Twin d p q) : SameToken d (some (token,p)) (some (token,q))

variable (pattern pattern') in
theorem nextToken_twin (twin : Twin d p q) (steady : p.peek u 0 = '[' → SteadySequence u pattern d (p.advance u))
    (kind : p.peek u 0 = '*' → (stars u (q.advance u)).1 = (stars u (p.advance u)).1) :
    Alike (SameToken d) (nextToken u pattern p) (nextToken u pattern' q) := by
  have behind := twin.advance (u := u)
  rw [nextToken,nextToken]
  dsimp only [RuneScanner.read]
  rw [twin.head,behind.eos,behind.head]
  split
  next => exact .read .none
  next proper =>
    split
    next =>
      split
      next => exact .failed _ _
      next => exact .read (.some behind.advance)
    next =>
      split
      next => exact .read (.some behind)
      next =>
        split
        next => exact .read (.some behind)
        next =>
          split
          next star =>
            have same : stars u (q.advance u) = ((stars u (p.advance u)).1,(stars u (q.advance u)).2) := by rw [← kind star]
            rw [same]
            exact .read (.some (stars_twin behind))
          next =>
            split
            next bracket =>
              have opened : 0 < (p.advance u).pos := by
                have := twin.pos
                rw [(advance_pos proper).1]
                omega
              rw [Except.map_eq_bind,Except.map_eq_bind]
              refine (sequence_twin behind opened (steady bracket)).bind fun a b _ _ same => ?_
              obtain ⟨token,p⟩ := a
              obtain ⟨token',q⟩ := b
              obtain ⟨rfl,after⟩ := same
              exact .read (.some after)
            next => exact .read (.some behind)

/-- The rune before a scanner that moved on is one it has passed. -/
theorem before_twin {p' q' : RuneScanner} (twin : Twin d p q) (twin' : Twin d p' q') (onward : Onward p p') (onward' : Onward q q')
    (moved : p.pos < p'.pos) : q'.peek u (-1) = p'.peek u (-1) := by
  obtain ⟨place,inside,further,size⟩ := twin.pos
  obtain ⟨_,_,further',_⟩ := twin'.pos
  obtain ⟨k,own⟩ := Int.eq_ofNat_of_zero_le (show 0 ≤ p'.pos - 1 - p.pos by omega)
  have seen {s s' : RuneScanner} (on : Onward s s') (same : s'.pos - 1 - s.pos = k) : s'.peek u (-1) = s.peek u k := by
    have here : s'.pos + -1 = s.pos + k := by omega
    rw [RuneScanner.peek,RuneScanner.peek,on.text,on.ignoreCase,here]
  rw [seen onward own,seen onward' (by omega),twin.peek]

/-- No sequence of the pattern loses a class some places further. -/
def SteadyBody (u : Unicode) (pattern : List Rune) (d : Nat) : Nat → RuneScanner → Prop
  | 0,_ => True
  | turns + 1,p => (p.peek u 0 = '[' → SteadySequence u pattern d (p.advance u)) ∧
      ∀ token p', nextToken u pattern p = .ok (some (token,p')) → SteadyBody u pattern d turns p'

/-- Scanners with the same runes left read the same tokens. -/
theorem bodyTokens_twin {turns turns' : Nat} {result result' : List Token} (twin : Twin d p q)
    (enough : p.text.length < p.pos + turns) (enough' : q.text.length < q.pos + turns') (steady : SteadyBody u pattern d turns p)
    (kind : p.peek u 0 = '*' → (stars u (q.advance u)).1 = (stars u (p.advance u)).1) :
    Alike (fun a b => ∃ tokens, a = result ++ tokens ∧ b = result' ++ tokens) (bodyTokens u pattern turns p result)
      (bodyTokens u pattern' turns' q result') := by
  induction turns generalizing turns' p q result result' with
  | zero =>
    have := twin.pos
    omega
  | succ turns ih =>
    obtain ⟨place,inside,further,size⟩ := twin.pos
    cases turns' with
    | zero => omega
    | succ turns' =>
      obtain ⟨here,later⟩ := steady
      rw [bodyTokens,bodyTokens]
      refine (nextToken_twin _ _ twin here kind).bind fun a b given given' same => ?_
      cases same with
      | none => exact .read ⟨[],by simp,by simp⟩
      | @some token p' q' behind =>
        obtain ⟨onward,moved⟩ := nextToken_onward place inside given
        have onward' := (nextToken_onward (by omega) (by omega) given').1
        have before := before_twin (u := u) twin behind onward onward' moved
        obtain ⟨_,_,further',size'⟩ := behind.pos
        have length := congrArg List.length onward.text
        refine Alike.weaken (ih behind (by omega) (by omega) (later _ _ given) fun star => ?_) fun a b rest => ?_
        · have proper : p'.peek u 0 ≠ NUL := by
            rw [star]
            decide
          refine stars_kind behind.advance ?_
          rw [peek_advance _ _ proper,peek_advance _ _ (by rwa [behind.head])]
          exact before
        · obtain ⟨tokens,rfl,rfl⟩ := rest
          exact ⟨token :: tokens,List.append_assoc _ _ _,List.append_assoc _ _ _⟩

end Twins

end Vbe.Wildcard
