import Mathlib.Data.List.Infix
import Vbe.Wildcard.Match

/-! The search for a match as a function of what is left of the text, with case folded. It says
whether it stands at the start of the text it was called with. -/
namespace Vbe.Wildcard

variable (u : Unicode)

/-- A token other than a star takes a rune. -/
def takes (token : Token) (c : Rune) : Bool :=
  match token with
  | .rune ch => c = ch
  | .dirSep => c = '/'
  | .anyChar => c ≠ '/'
  | .seq items negated => items.any (·.contains u c) ≠ negated
  | .star _ => false

/-- The loop of a star over the suffixes of a text. -/
def searchLoop (follow : List Rune → MatchResult) (doubleStar : Bool) : Rune → List Rune → MatchResult
  | _,[] => .wcAbortAll
  | tch,c :: text =>
    if follow (c :: text) ≠ .wcNoMatch then
      if ¬ doubleStar ∨ follow (c :: text) ≠ .wcAbortToDoubleStar then follow (c :: text)
      else searchLoop follow doubleStar c text
    else if ¬ doubleStar ∧ tch = '/' then .wcAbortToDoubleStar
    else searchLoop follow doubleStar c text

def search : Bool → List Token → List Rune → MatchResult
  | _,[],text => if text = [] then .wcMatch else .wcNoMatch
  | start,token :: tokens,text =>
    match token with
    | .star doubleStar =>
      match tokens with
      | [] => if ¬ doubleStar ∧ '/' ∈ text then .wcNoMatch else .wcMatch
      | next :: others =>
        if (if doubleStar ∧ others ≠ [] ∧ isDirSep next then search true others text else .wcNoMatch) = .wcMatch then .wcMatch
        else if ¬ doubleStar ∧ isDirSep next then
          if '/' ∉ text ∨ start ∧ text.head? = some '/' then .wcNoMatch
          else search false (next :: others) (text.dropWhile (· ≠ '/'))
        else searchLoop (search true (next :: others)) doubleStar (text.headD NUL) text
    | token =>
      match text with
      | [] => .wcAbortAll
      | c :: text => if takes u token c then search false tokens text else .wcNoMatch

section Scanner
variable {u} {text : List Rune} {ignoreCase : Bool}

/-- What is left of a text from a place on, with case folded. -/
def left (u : Unicode) (text : List Rune) (ignoreCase : Bool) (k : Nat) : List Rune := (text.drop k).map (fold u ignoreCase)

theorem left_cons {k : Nat} (inside : k < text.length) :
    left u text ignoreCase k = fold u ignoreCase text[k] :: left u text ignoreCase (k + 1) := by
  rw [left,List.drop_eq_getElem_cons inside,List.map_cons]
  rfl

theorem left_nil {k : Nat} (outside : text.length ≤ k) : left u text ignoreCase k = [] := by
  rw [left,List.drop_of_length_le outside,List.map_nil]

theorem left_add (k j : Nat) : left u text ignoreCase (k + j) = (left u text ignoreCase k).drop j := by
  rw [left,left,← List.map_drop,List.drop_drop]

theorem peek_inside {k : Nat} (inside : k < text.length) :
    RuneScanner.peek u ⟨k,text,ignoreCase⟩ 0 = fold u ignoreCase text[k] := by
  rw [RuneScanner.peek,if_pos (by simp [inside])]
  simp [inside]

theorem peek_outside {k : Nat} (outside : text.length ≤ k) : RuneScanner.peek u ⟨k,text,ignoreCase⟩ 0 = NUL := by
  rw [RuneScanner.peek,if_neg (by simp [outside])]

theorem eos_eq {k : Nat} : RuneScanner.eos ⟨k,text,ignoreCase⟩ = decide (text.length ≤ k) := by
  simp [RuneScanner.eos]

/-- Without a NUL the scanner passes every rune. -/
theorem advance_eq {k : Nat} (clean : NUL ∉ text) (inside : k < text.length) :
    RuneScanner.advance u ⟨k,text,ignoreCase⟩ = ⟨(k + 1 : Nat),text,ignoreCase⟩ := by
  have proper : RuneScanner.peek u ⟨k,text,ignoreCase⟩ 0 ≠ NUL := by
    rw [peek_inside inside,Ne,fold_eq_NUL]
    exact fun same => clean (same ▸ List.getElem_mem inside)
  rw [RuneScanner.advance,if_pos proper]
  rfl

theorem slash_mem_left {k : Nat} : '/' ∈ left u text ignoreCase k ↔ '/' ∈ text.drop k := by
  rw [left,List.mem_map]
  constructor
  · rintro ⟨c,member,same⟩
    exact fold_eq_slash.mp same ▸ member
  · exact fun member => ⟨'/',member,fold_eq_slash.mpr rfl⟩

theorem dropWhile_ne_slash (runes : List Rune) : runes.dropWhile (· ≠ '/') = runes.drop (runes.idxOf '/') := by
  induction runes with
  | nil => rfl
  | cons c runes ih =>
    by_cases same : c = '/'
    · simp [same]
    · have other : (c == '/') = false := by simpa using same
      rw [List.dropWhile_cons_of_pos (by simpa using same),ih,List.idxOf_cons,other]
      rfl

theorem idxOf_slash_left {k : Nat} : (left u text ignoreCase k).idxOf '/' = (text.drop k).idxOf '/' := by
  rw [left]
  induction text.drop k with
  | nil => rfl
  | cons c runes ih =>
    rw [List.map_cons,List.idxOf_cons,List.idxOf_cons,ih]
    by_cases same : c = '/'
    · rw [fold_eq_slash.mpr same,same]
    · have first : (fold u ignoreCase c == '/') = false := by simpa using mt fold_eq_slash.mp same
      have second : (c == '/') = false := by simpa using same
      rw [first,second]

theorem starLoop_eq {follow : List Rune → Option MatchResult} {follow' : List Rune → MatchResult} (clean : NUL ∉ text)
    (doubleStar : Bool) (returns : ∀ k, follow (text.drop k) = some (follow' (left u text ignoreCase k))) (tch : Rune)
    {turns k : Nat} (within : k ≤ text.length) (enough : text.length < turns + k) :
    starLoop u follow doubleStar turns tch ⟨k,text,ignoreCase⟩ =
      some (searchLoop follow' doubleStar tch (left u text ignoreCase k)) := by
  induction turns generalizing k tch with
  | zero => omega
  | succ turns ih =>
    rw [starLoop,eos_eq]
    by_cases inside : k < text.length
    · have rest : RuneScanner.rest ⟨k,text,ignoreCase⟩ = text.drop k := rfl
      have further (tch : Rune) := @ih tch (k + 1) inside (by omega)
      rw [if_neg (by simpa using inside),rest,returns k,peek_inside inside,advance_eq clean inside,further,left_cons inside,searchLoop]
      simp only [Option.bind_eq_bind,Option.bind_some,apply_ite some]
    · rw [if_pos (by simpa using inside),left_nil (by omega),searchLoop]

/-- What a single token does, in the scanner and in the search. -/
theorem matchFrom_single {token : Token} (single : isStar token = false) (tokens : List Token) (t : RuneScanner) :
    matchFrom u (token :: tokens) t =
      if t.eos then some .wcAbortAll
      else if takes u token (t.peek u 0) then matchFrom u tokens (t.advance u)
      else some .wcNoMatch := by
  by_cases ended : t.eos = true
  · cases token with
    | star => contradiction
    | rune | dirSep | anyChar | seq =>
      rw [matchFrom]
      simp [ended,isStar]
  · cases token with
    | star => contradiction
    | rune ch =>
      rw [matchFrom]
      by_cases own : t.peek u 0 = ch
      · simp [ended,takes,own]
      · simp [ended,takes,own]
    | dirSep =>
      rw [matchFrom]
      by_cases own : t.peek u 0 = '/'
      · simp [ended,takes,own]
      · simp [ended,takes,own]
    | anyChar =>
      rw [matchFrom]
      by_cases own : t.peek u 0 = '/'
      · simp [ended,takes,own]
      · simp [ended,takes,own]
    | seq items negated =>
      rw [matchFrom]
      by_cases own : items.any (·.contains u (t.peek u 0)) = negated
      · simp [ended,takes,own]
      · simp [ended,takes,own]

theorem search_single {token : Token} (single : isStar token = false) (start : Bool) (tokens : List Token) (text : List Rune) :
    search u start (token :: tokens) text =
      match text with
      | [] => .wcAbortAll
      | c :: text => if takes u token c then search u false tokens text else .wcNoMatch := by
  cases token with
  | star => contradiction
  | rune | dirSep | anyChar | seq => rfl

theorem matchFrom_star (doubleStar : Bool) (next : Token) (others : List Token) (t : RuneScanner) :
    matchFrom u (.star doubleStar :: next :: others) t =
      match (if doubleStar = true ∧ others ≠ [] ∧ isDirSep next = true then
        matchFrom u others ⟨0,t.rest,t.ignoreCase⟩ else some .wcNoMatch) with
      | none => none
      | some .wcMatch => some .wcMatch
      | some _ =>
        if ¬ doubleStar = true ∧ isDirSep next = true then
          if indexOf t.rest '/' = -1 then some .wcNoMatch
          else matchFrom u (next :: others) (RuneScanner.advance u {t with pos := t.pos + (indexOf t.rest '/' - 1)})
        else starLoop u (fun text => matchFrom u (next :: others) ⟨0,text,t.ignoreCase⟩) doubleStar (t.text.length + 1)
          (t.peek u 0) t := by
  rw [matchFrom]
  exact if_neg fun ended => ended.2 rfl

theorem search_star (start : Bool) (doubleStar : Bool) (next : Token) (others : List Token) (text : List Rune) :
    search u start (.star doubleStar :: next :: others) text =
      if (if doubleStar = true ∧ others ≠ [] ∧ isDirSep next = true then search u true others text else .wcNoMatch) = .wcMatch then
        .wcMatch
      else if ¬ doubleStar = true ∧ isDirSep next = true then
        if '/' ∉ text ∨ start = true ∧ text.head? = some '/' then .wcNoMatch
        else search u false (next :: others) (text.dropWhile (· ≠ '/'))
      else searchLoop (search u true (next :: others)) doubleStar (text.headD NUL) text := rfl

/-- The jump of a star to the separator that follows it. It goes one place back from a separator
that it stands at, and from the start of the text it does not come forth again. -/
theorem jump_eq (clean : NUL ∉ text) (tokens : List Token)
    (same : ∀ k, k ≤ text.length → matchFrom u (.dirSep :: tokens) ⟨k,text,ignoreCase⟩ =
      some (search u (k = 0) (.dirSep :: tokens) (left u text ignoreCase k))) {k : Nat} (slash : '/' ∈ text.drop k) :
    matchFrom u (.dirSep :: tokens)
        (RuneScanner.advance u ⟨(k : Int) + (((text.drop k).idxOf '/' : Nat) - 1),text,ignoreCase⟩) =
      some (if k = 0 ∧ (left u text ignoreCase k).head? = some '/' then .wcNoMatch
        else search u false (.dirSep :: tokens) ((left u text ignoreCase k).dropWhile (· ≠ '/'))) := by
  have place := List.idxOf_lt_length_of_mem slash
  rw [List.length_drop] at place
  have landing : (left u text ignoreCase k).dropWhile (· ≠ '/') = left u text ignoreCase (k + (text.drop k).idxOf '/') := by
    rw [dropWhile_ne_slash,idxOf_slash_left,left_add]
  rw [landing]
  by_cases stuck : k = 0 ∧ (text.drop k).idxOf '/' = 0
  · obtain ⟨rfl,first⟩ := stuck
    have inside : 0 < text.length := by omega
    have head : (left u text ignoreCase 0).head? = some '/' := by
      have here : text[0] = '/' := by
        cases text with
        | nil => simp at inside
        | cons c text =>
          by_contra other
          have differs : (c == '/') = false := by simpa using other
          rw [List.drop_zero,List.idxOf_cons,differs] at first
          simp at first
      rw [left_cons inside,List.head?_cons,fold_eq_slash.mpr here]
    rw [if_pos ⟨rfl,head⟩,first]
    have before : RuneScanner.peek u ⟨-1,text,ignoreCase⟩ 0 = NUL := by simp [RuneScanner.peek]
    have still : RuneScanner.advance u ⟨-1,text,ignoreCase⟩ = ⟨-1,text,ignoreCase⟩ := by
      rw [RuneScanner.advance,if_neg (by simpa using before)]
    have begun : RuneScanner.eos ⟨-1,text,ignoreCase⟩ = false := by simp [RuneScanner.eos]; omega
    have start : ((0 : Nat) : Int) + (((0 : Nat) : Int) - 1) = -1 := by omega
    rw [start,still,matchFrom_single rfl,begun,before]
    simp [takes,NUL]
  · have ahead : 1 ≤ k + (text.drop k).idxOf '/' := by omega
    have back : (k : Int) + (((text.drop k).idxOf '/' : Nat) - 1) = ((k + (text.drop k).idxOf '/' - 1 : Nat) : Int) := by omega
    have onward : k + (text.drop k).idxOf '/' - 1 + 1 = k + (text.drop k).idxOf '/' := by omega
    have moving : ¬ (k = 0 ∧ (left u text ignoreCase k).head? = some '/') := by
      rintro ⟨rfl,head⟩
      apply stuck
      refine ⟨rfl,?_⟩
      rw [← idxOf_slash_left (u := u)]
      cases given : left u text ignoreCase 0 with
      | nil => rfl
      | cons c runes =>
        rw [given,List.head?_cons,Option.some.injEq] at head
        simp [head]
    rw [if_neg moving,back,advance_eq clean (by omega),onward,same _ (by omega)]
    congr 1

theorem left_of_drop (k : Nat) : left u (text.drop k) ignoreCase 0 = left u text ignoreCase k := by
  rw [left,left,List.drop_zero]

theorem slash_found {k : Nat} : indexOf (text.drop k) '/' ≠ -1 ↔ '/' ∈ left u text ignoreCase k := by
  rw [slash_mem_left,indexOf_eq]
  split
  next member => exact ⟨fun _ => member,fun _ => by omega⟩
  next absent => simp [absent]

/-- On a text without NUL the match returns what the search finds. -/
theorem matchFrom_eq (tokens : List Token) (clean : NUL ∉ text) {k : Nat} (within : k ≤ text.length) :
    matchFrom u tokens ⟨k,text,ignoreCase⟩ = some (search u (k = 0) tokens (left u text ignoreCase k)) := by
  induction size : tokens.length using Nat.strong_induction_on generalizing tokens text k with
  | _ n ih =>
    have shorter (others : List Token) (less : others.length < tokens.length) (k : Nat) :
        matchFrom u others ⟨0,text.drop k,ignoreCase⟩ = some (search u true others (left u text ignoreCase k)) := by
      have clean' : NUL ∉ text.drop k := fun member => clean (List.mem_of_mem_drop member)
      have found := ih others.length (size ▸ less) others clean' (Nat.zero_le _) rfl
      rw [left_of_drop] at found
      simpa using found
    have further (others : List Token) (less : others.length < tokens.length) {k : Nat} (within : k ≤ text.length) :=
      ih others.length (size ▸ less) others clean within rfl
    have rest : RuneScanner.rest ⟨k,text,ignoreCase⟩ = text.drop k := rfl
    cases tokens with
    | nil =>
      rw [matchFrom,search,eos_eq]
      by_cases inside : k < text.length
      · rw [left_cons inside]
        simp [inside]
      · rw [left_nil (by omega)]
        simp
        omega
    | cons token tokens =>
      cases kind : isStar token with
      | false =>
        rw [matchFrom_single kind,search_single kind,eos_eq]
        by_cases inside : k < text.length
        · rw [if_neg (by simpa using inside),peek_inside inside,left_cons inside,advance_eq clean inside,
            further tokens (by simp) inside]
          simp only [apply_ite some]
          rfl
        · rw [if_pos (by simpa using inside),left_nil (by omega)]
      | true =>
        obtain ⟨doubleStar,rfl⟩ : ∃ doubleStar, token = .star doubleStar := by
          cases token with
          | star doubleStar => exact ⟨doubleStar,rfl⟩
          | rune | dirSep | anyChar | seq => contradiction
        have star : ¬ (RuneScanner.eos ⟨k,text,ignoreCase⟩ = true ∧ ¬ isStar (.star doubleStar) = true) := fun ended => ended.2 rfl
        cases tokens with
        | nil =>
          rw [matchFrom,search,if_neg star,rest]
          simp only [show indexOf (text.drop k) '/' ≠ -1 ↔ '/' ∈ left u text ignoreCase k from slash_found]
        | cons next others =>
          have less : others.length < (Token.star doubleStar :: next :: others).length := Nat.lt_succ_of_lt (Nat.lt_succ_self _)
          have skipped : (if doubleStar = true ∧ others ≠ [] ∧ isDirSep next = true then
              matchFrom u others ⟨0,text.drop k,ignoreCase⟩ else some .wcNoMatch) =
              some (if doubleStar = true ∧ others ≠ [] ∧ isDirSep next = true then
                search u true others (left u text ignoreCase k) else .wcNoMatch) := by
            rw [apply_ite some,shorter others less k]
          have remaining : (if ¬ doubleStar = true ∧ isDirSep next = true then
                if indexOf (text.drop k) '/' = -1 then some .wcNoMatch
                else matchFrom u (next :: others)
                  (RuneScanner.advance u ⟨(k : Int) + (indexOf (text.drop k) '/' - 1),text,ignoreCase⟩)
              else starLoop u (fun text => matchFrom u (next :: others) ⟨0,text,ignoreCase⟩) doubleStar (text.length + 1)
                (RuneScanner.peek u ⟨k,text,ignoreCase⟩ 0) ⟨k,text,ignoreCase⟩) =
              some (if ¬ doubleStar = true ∧ isDirSep next = true then
                if '/' ∉ left u text ignoreCase k ∨ k = 0 ∧ (left u text ignoreCase k).head? = some '/' then .wcNoMatch
                else search u false (next :: others) ((left u text ignoreCase k).dropWhile (· ≠ '/'))
              else searchLoop (search u true (next :: others)) doubleStar ((left u text ignoreCase k).headD NUL)
                (left u text ignoreCase k)) := by
            split
            next jump =>
              obtain rfl : next = .dirSep := by
                cases next with
                | dirSep => rfl
                | rune | star | anyChar | seq => simp [isDirSep] at jump
              by_cases slash : '/' ∈ text.drop k
              · have found : '/' ∈ left u text ignoreCase k := slash_mem_left.mpr slash
                rw [indexOf_eq,if_pos slash,if_neg (by omega),jump_eq clean others _ slash]
                · simp [found]
                · exact fun k within => further _ (by simp) within
              · have absent : '/' ∉ left u text ignoreCase k := mt slash_mem_left.mp slash
                rw [indexOf_eq,if_neg slash,if_pos rfl]
                simp [absent]
            next =>
              have head : RuneScanner.peek u ⟨k,text,ignoreCase⟩ 0 = (left u text ignoreCase k).headD NUL := by
                by_cases inside : k < text.length
                · rw [peek_inside inside,left_cons inside]
                  rfl
                · rw [peek_outside (by omega),left_nil (by omega)]
                  rfl
              rw [head]
              exact starLoop_eq clean doubleStar (fun k => shorter _ (by simp) k) _ within (by omega)
          rw [matchFrom_star,search_star,rest,skipped]
          simp only
          generalize (if doubleStar = true ∧ others ≠ [] ∧ isDirSep next = true then
            search u true others (left u text ignoreCase k) else .wcNoMatch) = skip
          cases skip with
          | wcMatch => rfl
          | wcNoMatch | wcAbortAll | wcAbortToDoubleStar =>
            simp only [remaining]
            simp

end Scanner

end Vbe.Wildcard
