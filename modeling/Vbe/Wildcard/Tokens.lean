import Mathlib.Data.List.Basic

/-! Tokens of a wildcard pattern and the scanner of runes. The tables of package unicode are
a parameter. -/
namespace Vbe.Wildcard

abbrev Rune := Char

/-- The rune that stands for the end of a text. -/
def NUL : Rune := Char.ofNat 0

/-- Classes of runes. Neither the separator nor the end of a text is the lower case of another rune. -/
structure Unicode where
  IsSpace : Rune → Bool
  IsLetter : Rune → Bool
  IsDigit : Rune → Bool
  IsSpaceSeparator : Rune → Bool
  IsControl : Rune → Bool
  IsGraphic : Rune → Bool
  IsLower : Rune → Bool
  IsPrint : Rune → Bool
  IsPunct : Rune → Bool
  IsSymbol : Rune → Bool
  IsUpper : Rune → Bool
  ToLower : Rune → Rune
  lower_slash : ∀ c, IsUpper c → c ≠ '/' ∧ ToLower c ≠ '/'
  lower_nul : ∀ c, IsUpper c → c ≠ NUL ∧ ToLower c ≠ NUL

variable (u : Unicode)

section Folding

/-- Case is ignored by reading upper case as lower case. -/
def fold (ignoreCase : Bool) (c : Rune) : Rune := if ignoreCase && u.IsUpper c then u.ToLower c else c

variable {u}

theorem fold_eq_slash {ignoreCase : Bool} {c : Rune} : fold u ignoreCase c = '/' ↔ c = '/' := by
  rw [fold]
  split
  next upper =>
    obtain ⟨_,isUpper⟩ := Bool.and_eq_true_iff.mp upper
    have none := u.lower_slash c isUpper
    exact ⟨fun same => absurd same none.2,fun same => absurd same none.1⟩
  next => rfl

theorem fold_eq_NUL {ignoreCase : Bool} {c : Rune} : fold u ignoreCase c = NUL ↔ c = NUL := by
  rw [fold]
  split
  next upper =>
    obtain ⟨_,isUpper⟩ := Bool.and_eq_true_iff.mp upper
    have none := u.lower_nul c isUpper
    exact ⟨fun same => absurd same none.2,fun same => absurd same none.1⟩
  next => rfl

end Folding

section Tokens

inductive ClassName
  | alnum
  | alpha
  | ascii
  | blank
  | cntrl
  | digit
  | graph
  | lower
  | print
  | punct
  | space
  | upper
  | xdigit
deriving DecidableEq

inductive SeqToken
  | rune (ch : Rune)
  | runeRange (start stop : Rune) (negated : Bool)
  /-- The class of upper case holds lower case as well where case is ignored. -/
  | ofClass (name : ClassName) (ignoreCase : Bool)
deriving DecidableEq

def ClassName.holds (ignoreCase : Bool) (ch : Rune) : ClassName → Bool
  | .alnum => u.IsLetter ch || u.IsDigit ch
  | .alpha => u.IsLetter ch
  | .ascii => ch.toNat ≤ 127
  | .blank => u.IsSpaceSeparator ch || ch == '\t'
  | .cntrl => u.IsControl ch
  | .digit => u.IsDigit ch
  | .graph => u.IsGraphic ch
  | .lower => u.IsLower ch
  | .print => u.IsPrint ch
  | .punct => u.IsPunct ch || u.IsSymbol ch
  | .space => u.IsSpace ch
  | .upper => if ignoreCase then u.IsUpper ch || u.IsLower ch else u.IsUpper ch
  | .xdigit => 'A' ≤ ch && ch ≤ 'F' || 'a' ≤ ch && ch ≤ 'f' || u.IsDigit ch

/-- The runes of the token of a sequence. -/
def SeqToken.contains (ch : Rune) : SeqToken → Bool
  | .rune own => ch == own
  | .runeRange start stop _ => start ≤ ch && ch ≤ stop
  | .ofClass name ignoreCase => name.holds u ignoreCase ch

inductive Token
  | anyChar
  | dirSep
  | star (doubleStar : Bool)
  | rune (ch : Rune)
  | seq (items : List SeqToken) (negated : Bool)
deriving DecidableEq

def isStar : Token → Bool
  | .star _ => true
  | _ => false

def isDirSep : Token → Bool
  | .dirSep => true
  | _ => false

end Tokens

section Scanner

structure RuneScanner where
  pos : Int
  text : List Rune
  ignoreCase : Bool

/-- The place of a rune in some runes, or -1. -/
def indexOf : List Rune → Rune → Int
  | [],_ => -1
  | n :: rest,ch =>
    if n = ch then 0
    else
      let i := indexOf rest ch
      if i = -1 then -1 else i + 1

theorem indexOf_eq (runes : List Rune) (ch : Rune) : indexOf runes ch = if ch ∈ runes then (runes.idxOf ch : Int) else -1 := by
  induction runes with
  | nil => rfl
  | cons n runes ih =>
    rw [indexOf,List.idxOf_cons]
    by_cases same : n = ch
    · simp [same]
    · have other : (n == ch) = false := by simpa using same
      have ne : ch ≠ n := fun h => same h.symm
      rw [if_neg same,ih,other]
      by_cases member : ch ∈ runes
      · have nonneg : (runes.idxOf ch : Int) ≠ -1 := by omega
        simp [member,nonneg]
      · simp [member,ne]

namespace RuneScanner

/-- The rune some places on, and NUL outside of the text. -/
def peek (s : RuneScanner) (index : Int) : Rune :=
  if s.pos + index < s.text.length ∧ 0 ≤ s.pos + index then
    fold u s.ignoreCase (s.text.getD (s.pos + index).toNat NUL)
  else NUL

/-- The scanner behind the rune that is read. A NUL is not passed. -/
def advance (s : RuneScanner) : RuneScanner := if s.peek u 0 ≠ NUL then {s with pos := s.pos + 1} else s

def read (s : RuneScanner) : Rune × RuneScanner := (s.peek u 0,s.advance u)

def eos (s : RuneScanner) : Bool := s.text.length ≤ s.pos

/-- The text from the place of the scanner on. -/
def rest (s : RuneScanner) : List Rune := s.text.drop s.pos.toNat

def indexOf (s : RuneScanner) (ch : Rune) : Int := if s.eos then -1 else Wildcard.indexOf s.rest ch

end RuneScanner

end Scanner

end Vbe.Wildcard
