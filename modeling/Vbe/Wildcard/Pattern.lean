import Vbe.Wildcard.Tokens

/-! Patterns as lists of tokens. Loops have as many turns as there are runes to read, and each of
their turns reads one. -/
namespace Vbe.Wildcard

variable (u : Unicode)

structure Options where
  ignoreCase : Bool
  baseDir : List Rune
deriving DecidableEq

structure WildcardMatcher where
  pattern : List Rune
  tokens : List Token
  dirOnly : Bool
  negated : Bool
  options : Options
deriving DecidableEq

inductive PatternError
  /-- End of line found after a backslash. -/
  | endOfLine (pattern : List Rune)
  /-- Unterminated sequence, expected a closing bracket. -/
  | unterminated (pattern : List Rune)
  /-- Unrecognized character class. -/
  | unrecognized (pattern name : List Rune)
deriving DecidableEq

section Sequences

def className (name : List Rune) : Option ClassName :=
  match String.ofList name with
  | "alnum" => some .alnum
  | "alpha" => some .alpha
  | "ascii" => some .ascii
  | "blank" => some .blank
  | "cntrl" => some .cntrl
  | "digit" => some .digit
  | "graph" => some .graph
  | "lower" => some .lower
  | "print" => some .print
  | "punct" => some .punct
  | "space" => some .space
  | "upper" => some .upper
  | "xdigit" => some .xdigit
  | _ => none

/-- A rune, or the one behind a backslash. -/
def readEscaped (pattern : List Rune) (ch : Rune) (p : RuneScanner) : Except PatternError (Rune × RuneScanner) :=
  if ch = '\\' then
    if (p.read u).1 = NUL then .error (.endOfLine pattern) else .ok (p.read u)
  else .ok (ch,p)

/-- The items of a sequence up to its closing bracket, and the rune and the scanner behind them. -/
def seqItems (pattern : List Rune) (negatedSeq : Bool) :
    Nat → Rune → RuneScanner → List SeqToken → Except PatternError (Rune × RuneScanner × List SeqToken)
  | 0,ch,p,seq => .ok (ch,p,seq)
  | turns + 1,ch,p,seq =>
    if ch = ']' ∨ ch = NUL then .ok (ch,p,seq)
    else do
      let (ch,p) ← readEscaped u pattern ch p
      if p.peek u 0 = '-' ∧ p.peek u 1 ≠ ']' ∧ p.peek u 1 ≠ NUL then
        let (endCh,p) := (p.advance u).read u
        let (endCh,p) ← readEscaped u pattern endCh p
        let (next,p) := p.read u
        seqItems pattern negatedSeq turns next p (seq ++ [.runeRange ch endCh negatedSeq])
      else if ch = '[' ∧ p.peek u 0 = ':' then
        let closingBracketIndex := p.indexOf ']'
        if closingBracketIndex = -1 then .error (.unterminated pattern)
        else if closingBracketIndex - 1 ≤ p.pos ∨ p.peek u (closingBracketIndex - 1) ≠ ':' then
          let (next,p) := p.read u
          seqItems pattern negatedSeq turns next p (seq ++ [.rune ch])
        else
          let name := ((p.text.drop (p.pos + 1).toNat).take (closingBracketIndex - 2).toNat).map u.ToLower
          let p := {p with pos := p.pos + closingBracketIndex + 1}
          match className name with
          | none => .error (.unrecognized pattern name)
          | some own =>
            let (next,p) := p.read u
            seqItems pattern negatedSeq turns next p (seq ++ [.ofClass own p.ignoreCase])
      else
        let (next,p) := p.read u
        seqItems pattern negatedSeq turns next p (seq ++ [.rune ch])

/-- The token of a sequence, behind its opening bracket. -/
def sequence (pattern : List Rune) (p : RuneScanner) : Except PatternError (Token × RuneScanner) := do
  let (ch,p) := p.read u
  let negatedSeq := ch = '!'
  let (ch,p) := if negatedSeq then p.read u else (ch,p)
  let (ch,p,seq) ← seqItems u pattern negatedSeq p.text.length ch p []
  if ch ≠ ']' then .error (.unterminated pattern) else .ok (.seq seq negatedSeq,p)

end Sequences

section Patterns

def skipStars : Nat → RuneScanner → RuneScanner
  | 0,p => p
  | turns + 1,p => if p.peek u 0 = '*' then skipStars turns (p.advance u) else p

/-- The token of a star, behind it. Stars that follow are read as well. -/
def stars (p : RuneScanner) : Token × RuneScanner :=
  if p.peek u 0 = '*' then
    let prevCh := p.peek u (-2)
    let p := skipStars u p.text.length p
    if prevCh = NUL ∨ prevCh = '/' ∧ (p.peek u 0 = '/' ∨ p.eos) then (.star true,p) else (.star false,p)
  else (.star false,p)

/-- The next token and the scanner behind it, or none at the end. -/
def nextToken (pattern : List Rune) (p : RuneScanner) : Except PatternError (Option (Token × RuneScanner)) :=
  let (ch,p) := p.read u
  if ch = NUL then .ok none
  else if ch = '\\' then
    if p.eos then .error (.endOfLine pattern) else .ok (some (.rune (p.read u).1,(p.read u).2))
  else if ch = '?' then .ok (some (.anyChar,p))
  else if ch = '/' then .ok (some (.dirSep,p))
  else if ch = '*' then .ok (some (stars u p))
  else if ch = '[' then (sequence u pattern p).map some
  else .ok (some (.rune ch,p))

def bodyTokens (pattern : List Rune) : Nat → RuneScanner → List Token → Except PatternError (List Token)
  | 0,_,result => .ok result
  | turns + 1,p,result => do
    match ← nextToken u pattern p with
    | none => .ok result
    | some (token,p) => bodyTokens pattern turns p (result ++ [token])

def skipSpaces : Nat → RuneScanner → RuneScanner
  | 0,p => p
  | turns + 1,p => if u.IsSpace (p.peek u 0) then skipSpaces turns (p.advance u) else p

/-- Spaces around a pattern are cut off, unless the last byte but one is a backslash. -/
def trim (pattern : List Rune) : List Rune :=
  let bytes := pattern.flatMap String.utf8EncodeChar
  if bytes.length > 2 ∧ bytes[bytes.length - 2]? ≠ some 0x5C then
    ((pattern.dropWhile u.IsSpace).reverse.dropWhile u.IsSpace).reverse
  else pattern

/-- A base directory without the separator at its end. -/
def trimBaseDir (baseDir : List Rune) : List Rune :=
  if baseDir.length > 1 ∧ baseDir.getLast? = some '/' then baseDir.dropLast else baseDir

def baseTokens (baseDir : List Rune) : List Token := baseDir.map fun ch => if ch = '/' then .dirSep else .rune ch

/-- The tokens before those of the pattern itself: the base directory, and '**/' for a pattern that
matches anywhere. -/
def leadingTokens (pattern baseDir : List Rune) (p : RuneScanner) : List Token :=
  let isPatternRooted := p.peek u 0 = '/'
  let base :=
    if baseDir ≠ [] ∧ pattern ≠ [] then baseTokens baseDir ++ if isPatternRooted then [] else [.dirSep] else []
  let firstSlashIndex := p.indexOf '/'
  if ¬ isPatternRooted ∧ pattern ≠ ['*','*'] ∧ pattern ≠ [] then
    if firstSlashIndex = -1 ∨ firstSlashIndex = p.text.length - 1 - p.pos then base ++ [.star true,.dirSep]
    else if baseDir = [] then base ++ [.dirSep]
    else base
  else base

def NewWildcardMatcher (pattern : List Rune) (options : Options) : Except PatternError WildcardMatcher := do
  let pattern := trim u pattern
  let args := {options with baseDir := trimBaseDir options.baseDir}
  let p : RuneScanner := ⟨0,pattern,args.ignoreCase⟩
  let p := skipSpaces u p.text.length p
  let negated := p.peek u 0 = '!'
  let p := if negated then p.advance u else p
  let leading := leadingTokens u pattern args.baseDir p
  let dirOnly := p.text.getLast? = some '/'
  let p := if dirOnly then {p with text := p.text.dropLast} else p
  let tokens ← bodyTokens u pattern (p.text.length + 1) p leading
  return ⟨pattern,tokens,dirOnly,negated,args⟩

end Patterns

end Vbe.Wildcard
