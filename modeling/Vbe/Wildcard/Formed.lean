import Mathlib.Data.List.Chain
import Vbe.Wildcard.Pattern

/-! How tokens follow each other in every pattern. -/
namespace Vbe.Wildcard

/-- No star follows a star, and a double star follows only what takes nothing but a separator. -/
def Follows (token next : Token) : Prop :=
  (isStar token → isStar next = false) ∧ (next = .star true → token = .dirSep ∨ token = .rune '/')

def Formed (tokens : List Token) : Prop := tokens.IsChain Follows

theorem follows_of_not_star {token next : Token} (plain : isStar next = false) : Follows token next := by
  refine ⟨fun _ => plain,?_⟩
  rintro rfl
  contradiction

theorem Formed.concat {tokens : List Token} (formed : Formed tokens) {next : Token}
    (follows : ∀ token ∈ tokens.getLast?, Follows token next) : Formed (tokens ++ [next]) := by
  refine List.isChain_append.mpr ⟨formed,List.isChain_singleton _,?_⟩
  intro token last next' first
  rw [List.head?_cons,Option.mem_some_iff] at first
  exact first ▸ follows token last

variable {u : Unicode}

section Scanner
variable (p : RuneScanner)

theorem peek_advance (index : Int) (proper : p.peek u 0 ≠ NUL) : (p.advance u).peek u index = p.peek u (index + 1) := by
  rw [RuneScanner.advance,if_pos proper,RuneScanner.peek,RuneScanner.peek]
  have place : p.pos + 1 + index = p.pos + (index + 1) := by omega
  simp only [place]

/-- A rune that was read is the one before the scanner. -/
theorem peek_behind (proper : (p.read u).1 ≠ NUL) : (p.read u).2.peek u (-1) = (p.read u).1 :=
  peek_advance p (-1) proper

theorem skipStars_peek (turns : Nat) (enough : 0 ≤ p.pos → p.text.length ≤ p.pos + turns) :
    (skipStars u turns p).peek u 0 ≠ '*' := by
  induction turns generalizing p with
  | zero =>
    rw [skipStars,RuneScanner.peek]
    split
    next inside => omega
    next => decide
  | succ turns ih =>
    rw [skipStars]
    split
    next star =>
      have proper : p.peek u 0 ≠ NUL := by
        rw [star]
        decide
      apply ih
      rw [RuneScanner.advance,if_pos proper]
      intro inside
      have place : 0 ≤ p.pos := by
        by_contra before
        apply proper
        rw [RuneScanner.peek,if_neg]
        rintro ⟨_,after⟩
        omega
      have bound := enough place
      simp only
      omega
    next plain => exact plain

end Scanner

section Sequences

theorem readEscaped_behind {pattern : List Rune} {ch ch' : Rune} {p p' : RuneScanner} (pos : ch ≠ NUL → p.peek u (-1) = ch)
    (result : readEscaped u pattern ch p = .ok (ch',p')) : ch' ≠ NUL → p'.peek u (-1) = ch' := by
  rw [readEscaped] at result
  split at result
  next =>
    split at result
    next => contradiction
    next =>
      cases result
      exact peek_behind p
  next =>
    cases result
    exact pos

/-- The rune at which the items of a sequence end is the one before the scanner. -/
theorem seqItems_behind {pattern : List Rune} {negatedSeq : Bool} {turns : Nat} {ch ch' : Rune} {p p' : RuneScanner}
    {seq seq' : List SeqToken} (pos : ch ≠ NUL → p.peek u (-1) = ch)
    (result : seqItems u pattern negatedSeq turns ch p seq = .ok (ch',p',seq')) : ch' ≠ NUL → p'.peek u (-1) = ch' := by
  induction turns generalizing ch p seq with
  | zero =>
    rw [seqItems] at result
    cases result
    exact pos
  | succ turns ih =>
    rw [seqItems] at result
    split at result
    next =>
      cases result
      exact pos
    next =>
      cases escaped : readEscaped u pattern ch p with
      | error => simp [escaped,bind,Except.bind] at result
      | ok read =>
        obtain ⟨ch,p⟩ := read
        simp only [escaped,bind,Except.bind] at result
        split at result
        next =>
          cases escaped' : readEscaped u pattern ((p.advance u).read u).1 ((p.advance u).read u).2 with
          | error => simp [escaped'] at result
          | ok read' =>
            simp only [escaped'] at result
            exact ih (peek_behind _) result
        next =>
          split at result
          next =>
            split at result
            next => contradiction
            next =>
              split at result
              next => exact ih (peek_behind _) result
              next =>
                split at result
                next => contradiction
                next => exact ih (peek_behind _) result
          next => exact ih (peek_behind _) result

end Sequences

section Bodies

/-- What the next token finds before it: behind a star no star is read, and a star at the start of
the pattern or behind a separator follows what takes nothing but a separator. -/
structure Ready (u : Unicode) (p : RuneScanner) (result : List Token) : Prop where
  formed : Formed result
  star : ∀ token ∈ result.getLast?, isStar token → p.peek u 0 ≠ '*'
  behind : p.peek u 0 = '*' → p.peek u (-1) = NUL ∨ p.peek u (-1) = '/' →
    ∀ token ∈ result.getLast?, token = .dirSep ∨ token = .rune '/'

variable {pattern : List Rune} {p p' : RuneScanner} {result : List Token} {token : Token}

theorem Ready.plain (ready : Ready u p result) (kind : isStar token = false) (proper : p'.peek u (-1) ≠ NUL)
    (slash : p'.peek u (-1) = '/' → token = .dirSep ∨ token = .rune '/') : Ready u p' (result ++ [token]) := by
  refine ⟨ready.formed.concat fun _ _ => follows_of_not_star kind,?_,?_⟩
  · intro last member star
    rw [List.getLast?_append_of_ne_nil _ (by simp),List.getLast?_singleton,Option.mem_some_iff] at member
    rw [← member,kind] at star
    contradiction
  · intro _ before last member
    rw [List.getLast?_append_of_ne_nil _ (by simp),List.getLast?_singleton,Option.mem_some_iff] at member
    rcases before with none | separator
    · exact absurd none proper
    · exact member ▸ slash separator

theorem Ready.stars (ready : Ready u p result) (star : p.peek u 0 = '*') :
    Ready u (Wildcard.stars u (p.advance u)).2 (result ++ [(Wildcard.stars u (p.advance u)).1]) := by
  have proper : p.peek u 0 ≠ NUL := by
    rw [star]
    decide
  have unstarred : ∀ token ∈ result.getLast?, isStar token = false := by
    intro token member
    cases kind : isStar token with
    | false => rfl
    | true => exact absurd star (ready.star token member kind)
  have before : (p.advance u).peek u (-2) = p.peek u (-1) := peek_advance p (-2) proper
  have past : (skipStars u (p.advance u).text.length (p.advance u)).peek u 0 ≠ '*' :=
    skipStars_peek _ _ fun _ => by omega
  have done {token : Token} {p' : RuneScanner} (kind : isStar token = true) (past : p'.peek u 0 ≠ '*')
      (follows : token = .star true → ∀ last ∈ result.getLast?, last = .dirSep ∨ last = .rune '/') :
      Ready u p' (result ++ [token]) := by
    refine ⟨ready.formed.concat fun last member => ⟨fun own => ?_,fun double => follows double last member⟩,?_,?_⟩
    · rw [unstarred last member] at own
      contradiction
    · intro _ _ _
      exact past
    · intro again
      exact absurd again past
  rw [Wildcard.stars]
  split
  next =>
    simp only [before]
    split
    next double =>
      refine done rfl past fun _ => ready.behind star ?_
      rcases double with first | ⟨separator,_⟩
      · exact .inl first
      · exact .inr separator
    next => exact done rfl past fun double => absurd double (by simp)
  next last => exact done rfl last fun double => absurd double (by simp)

/-- A sequence ends behind its closing bracket. -/
theorem sequence_behind (items : sequence u pattern p = .ok (token,p')) : isStar token = false ∧ p'.peek u (-1) = ']' := by
  rw [sequence] at items
  simp only [bind,Except.bind] at items
  split at items
  next => contradiction
  next read given =>
    split at items
    next => contradiction
    next closed =>
      cases items
      have last := seqItems_behind (by
        split
        next => exact peek_behind _
        next => exact peek_behind _) given
      have bracket : read.1 = ']' := not_not.mp closed
      have proper : read.1 ≠ NUL := by
        rw [bracket]
        decide
      exact ⟨rfl,(last proper).trans bracket⟩

theorem nextToken_ready (ready : Ready u p result) (following : nextToken u pattern p = .ok (some (token,p'))) :
    Ready u p' (result ++ [token]) := by
  rw [nextToken] at following
  dsimp only at following
  by_cases proper : (p.read u).1 = NUL
  · rw [if_pos proper] at following
    cases following
  have behind : (p.read u).2.peek u (-1) = (p.read u).1 := peek_behind p proper
  rw [if_neg proper] at following
  by_cases escape : (p.read u).1 = '\\'
  · rw [if_pos escape] at following
    split at following
    next => contradiction
    next =>
      simp only [Except.ok.injEq,Option.some.injEq,Prod.mk.injEq] at following
      obtain ⟨rfl,rfl⟩ := following
      by_cases nul : ((p.read u).2.read u).1 = NUL
      · have still : ((p.read u).2.read u).2 = (p.read u).2 := by
          exact if_neg (not_not_intro nul)
        rw [still]
        refine ready.plain rfl (by rwa [behind]) fun separator => ?_
        rw [behind,escape] at separator
        exact absurd separator (by decide)
      · have own := peek_behind (p.read u).2 nul
        refine ready.plain rfl (by rwa [own]) fun separator => .inr ?_
        rw [← separator,own]
  rw [if_neg escape] at following
  have plain {token : Token} (kind : isStar token = false) (other : (p.read u).1 = '/' → token = .dirSep) :
      Ready u (p.read u).2 (result ++ [token]) :=
    ready.plain kind (by rwa [behind]) fun separator => .inl (other (behind ▸ separator))
  by_cases question : (p.read u).1 = '?'
  · rw [if_pos question] at following
    cases following
    exact plain rfl fun separator => absurd (question.symm.trans separator) (by decide)
  rw [if_neg question] at following
  by_cases slash : (p.read u).1 = '/'
  · rw [if_pos slash] at following
    cases following
    exact plain rfl fun _ => rfl
  rw [if_neg slash] at following
  by_cases star : (p.read u).1 = '*'
  · rw [if_pos star,Except.ok.injEq,Option.some.injEq] at following
    have done : Ready u (Wildcard.stars u (p.read u).2).2 (result ++ [(Wildcard.stars u (p.read u).2).1]) := ready.stars star
    rw [following] at done
    exact done
  rw [if_neg star] at following
  by_cases bracket : (p.read u).1 = '['
  · rw [if_pos bracket] at following
    cases items : sequence u pattern (p.read u).2 with
    | error => simp [items,Except.map] at following
    | ok read =>
      rw [items] at following
      simp only [Except.map,Except.ok.injEq,Option.some.injEq] at following
      subst following
      obtain ⟨kind,closed⟩ := sequence_behind items
      refine ready.plain kind ?_ fun separator => ?_
      · rw [closed]
        decide
      · rw [closed] at separator
        exact absurd separator (by decide)
  · rw [if_neg bracket] at following
    cases following
    exact plain rfl fun separator => absurd separator slash

theorem bodyTokens_formed {turns : Nat} {tokens : List Token} (ready : Ready u p result)
    (body : bodyTokens u pattern turns p result = .ok tokens) : Formed tokens := by
  induction turns generalizing p result with
  | zero =>
    rw [bodyTokens] at body
    cases body
    exact ready.formed
  | succ turns ih =>
    rw [bodyTokens] at body
    cases next : nextToken u pattern p with
    | error => simp [next,bind,Except.bind] at body
    | ok read =>
      simp only [next,bind,Except.bind] at body
      cases read with
      | none =>
        cases body
        exact ready.formed
      | some read => exact ih (nextToken_ready ready next) body

end Bodies

section Patterns
variable {pattern baseDir : List Rune} {p : RuneScanner}

theorem baseTokens_plain (token : Token) (member : token ∈ baseTokens baseDir) : isStar token = false := by
  obtain ⟨c,_,rfl⟩ := List.mem_map.mp member
  split
  next => rfl
  next => rfl

theorem Formed.append {front back : List Token} (formed : Formed front) (formed' : Formed back)
    (follows : ∀ token ∈ front.getLast?, ∀ next ∈ back.head?, Follows token next) : Formed (front ++ back) :=
  List.isChain_append.mpr ⟨formed,formed',follows⟩

theorem formed_baseTokens : Formed (baseTokens baseDir) := by
  induction baseDir with
  | nil => exact List.isChain_nil
  | cons c baseDir ih =>
    refine List.isChain_cons.mpr ⟨fun next first => ?_,ih⟩
    exact follows_of_not_star (baseTokens_plain next (List.mem_of_head? first))

theorem Ready.separated {result : List Token} (formed : Formed result) (last : ∀ token ∈ result.getLast?, token = .dirSep) :
    Ready u p result := by
  refine ⟨formed,?_,fun _ _ token member => .inl (last token member)⟩
  intro token member star
  rw [last token member] at star
  contradiction

/-- Before a pattern that is not rooted stands a separator, if anything. -/
theorem leadingTokens_ready (pattern baseDir : List Rune) {p' : RuneScanner} (shorter : p'.peek u 0 = '*' → p.peek u 0 = '*') :
    Ready u p' (leadingTokens u pattern baseDir p) := by
  rw [leadingTokens]
  by_cases rooted : p.peek u 0 = '/'
  · simp only [rooted,not_true,false_and,if_true,if_false,List.append_nil]
    have plain : ∀ token ∈ (if baseDir ≠ [] ∧ pattern ≠ [] then baseTokens baseDir else []), isStar token = false := by
      split
      next => exact baseTokens_plain
      next => simp
    refine ⟨?_,?_,?_⟩
    · split
      next => exact formed_baseTokens
      next => exact List.isChain_nil
    · intro token member star
      rw [plain token (List.mem_of_getLast? member)] at star
      contradiction
    · intro star
      rw [shorter star] at rooted
      exact absurd rooted (by decide)
  · simp only [rooted,not_false_iff,true_and,if_false]
    generalize leading : (if baseDir ≠ [] ∧ pattern ≠ [] then baseTokens baseDir ++ [.dirSep] else []) = base
    have formed : Formed base := by
      rw [← leading]
      split
      next => exact formed_baseTokens.concat fun _ _ => follows_of_not_star rfl
      next => exact List.isChain_nil
    have last : ∀ token ∈ base.getLast?, token = .dirSep := by
      rw [← leading]
      split
      next => simp
      next => simp
    split
    next =>
      split
      next =>
        have implicit : Formed [.star true,.dirSep] := List.isChain_pair.mpr (follows_of_not_star rfl)
        refine .separated (formed.append implicit ?_) (by simp)
        intro token member next first
        cases first
        obtain rfl := last token member
        exact ⟨fun star => absurd star Bool.false_ne_true,fun _ => .inl rfl⟩
      next =>
        split
        next => exact .separated (formed.concat fun _ _ => follows_of_not_star rfl) (by simp)
        next => exact .separated formed last
    next => exact .separated formed last

theorem star_of_shortened (p : RuneScanner) (dirOnly : Prop) [Decidable dirOnly]
    (star : (if dirOnly then {p with text := p.text.dropLast} else p).peek u 0 = '*') : p.peek u 0 = '*' := by
  split at star
  next =>
    rw [RuneScanner.peek] at star ⊢
    split at star
    next inside =>
      dsimp only at inside star
      have within : (p.pos + 0).toNat < p.text.dropLast.length := by omega
      rw [List.length_dropLast] at within
      rw [if_pos ⟨by omega,inside.2⟩]
      rw [List.getD_eq_getElem?_getD,List.getElem?_dropLast,if_pos within] at star
      rw [List.getD_eq_getElem?_getD]
      exact star
    next => exact absurd star (by decide)
  next => exact star

theorem NewWildcardMatcher_formed {options : Options} {matcher : WildcardMatcher}
    (created : NewWildcardMatcher u pattern options = .ok matcher) : Formed matcher.tokens := by
  rw [NewWildcardMatcher] at created
  simp only [bind,Except.bind] at created
  split at created
  next => contradiction
  next tokens body =>
    cases created
    exact bodyTokens_formed (leadingTokens_ready _ _ (star_of_shortened _ _)) body

end Patterns

end Vbe.Wildcard
