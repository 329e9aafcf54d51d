import Vbe.Wildcard.Pattern

/-! Matching of a text against tokens. A search that never returns has no result: a NUL in the
text is not passed by the loop of a star. -/
namespace Vbe.Wildcard

variable (u : Unicode)

inductive MatchResult
  | wcMatch
  | wcNoMatch
  | wcAbortAll
  | wcAbortToDoubleStar
deriving DecidableEq

/-- The loop of a star: what follows it is matched against the rest of the text, from one place
after the other. -/
def starLoop (follow : List Rune → Option MatchResult) (doubleStar : Bool) : Nat → Rune → RuneScanner → Option MatchResult
  | 0,_,_ => none
  | turns + 1,tch,t =>
    if t.eos then some .wcAbortAll
    else do
      let matchResult ← follow t.rest
      if matchResult ≠ .wcNoMatch then
        if ¬ doubleStar ∨ matchResult ≠ .wcAbortToDoubleStar then some matchResult
        else starLoop follow doubleStar turns (t.peek u 0) (t.advance u)
      else if ¬ doubleStar ∧ tch = '/' then some .wcAbortToDoubleStar
      else starLoop follow doubleStar turns (t.peek u 0) (t.advance u)

/-- The tokens from one on, matched from a place of the text on. -/
def matchFrom : List Token → RuneScanner → Option MatchResult
  | [],t => some (if t.eos then .wcMatch else .wcNoMatch)
  | token :: tokens,t =>
    let tch := t.peek u 0
    if t.eos ∧ ¬ isStar token then some .wcAbortAll
    else
      match token with
      | .rune ch => if tch ≠ ch then some .wcNoMatch else matchFrom tokens (t.advance u)
      | .dirSep => if tch ≠ '/' then some .wcNoMatch else matchFrom tokens (t.advance u)
      | .anyChar => if tch = '/' then some .wcNoMatch else matchFrom tokens (t.advance u)
      | .star doubleStar =>
        match tokens with
        | [] => some (if ¬ doubleStar ∧ indexOf t.rest '/' ≠ -1 then .wcNoMatch else .wcMatch)
        | next :: others =>
          -- '**/' may match nothing, unless it ends the pattern
          let skipped :=
            if doubleStar ∧ others ≠ [] ∧ isDirSep next then matchFrom others ⟨0,t.rest,t.ignoreCase⟩ else some .wcNoMatch
          match skipped with
          | none => none
          | some .wcMatch => some .wcMatch
          | some _ =>
            if ¬ doubleStar ∧ isDirSep next then
              let slashIndex := indexOf t.rest '/'
              if slashIndex = -1 then some .wcNoMatch
              else matchFrom (next :: others) (RuneScanner.advance u {t with pos := t.pos + (slashIndex - 1)})
            else
              starLoop u (fun text => matchFrom (next :: others) ⟨0,text,t.ignoreCase⟩) doubleStar
                (t.text.length + 1) tch t
      | .seq items negated =>
        if items.any (·.contains u tch) = negated then some .wcNoMatch else matchFrom tokens (t.advance u)

def doMatch (tokens : List Token) (text : List Rune) (ignoreCase : Bool) : Option MatchResult :=
  matchFrom u tokens ⟨0,text,ignoreCase⟩

/-- Whether a pattern matches a path, if the search for a match returns. -/
def WildcardMatcher.Match (matcher : WildcardMatcher) (text : List Rune) (isDir : Bool) : Option Bool :=
  if matcher.dirOnly ∧ ¬ isDir then some matcher.negated
  else (doMatch u matcher.tokens text matcher.options.ignoreCase).map fun result => (result = .wcMatch) ≠ matcher.negated

end Vbe.Wildcard
