import Vbe.Library.Json

/-! A decoder that gives out one token after the other, and whole values where one may begin. -/
namespace Vbe.Library.Json

inductive TokenState where
  | topValue
  | arrayStart
  | arrayValue
  | arrayComma
  | objectStart
  | objectKey
  | objectColon
  | objectValue
  | objectComma
deriving DecidableEq

inductive Delim where
  | openBracket
  | closeBracket
  | openBrace
  | closeBrace
deriving DecidableEq

inductive Token where
  | delim (d : Delim)
  | scalar (s : Scalar)

inductive TokenError where
  | eof
  | syntaxError
  | panicked
deriving DecidableEq

structure Decoder where
  rest : List Lexeme
  tokenState : TokenState
  tokenStack : List TokenState

def NewDecoder (l : List Lexeme) : Decoder := ⟨l,.topValue,[]⟩

def tokenValueAllowed : TokenState → Bool
  | .topValue => true
  | .arrayStart => true
  | .arrayValue => true
  | .objectValue => true
  | _ => false

def tokenValueEnd : TokenState → TokenState
  | .arrayStart => .arrayComma
  | .arrayValue => .arrayComma
  | .objectValue => .objectComma
  | state => state

/-- After the end of a container. -/
def pop (d : Delim) (rest : List Lexeme) : List TokenState → Except TokenError (Token × Decoder)
  | [] => .error .panicked
  | state :: stack => .ok (.delim d,⟨rest,tokenValueEnd state,stack⟩)

def nextToken (state : TokenState) (stack : List TokenState) : List Lexeme → Except TokenError (Token × Decoder)
  | [] => .error .eof
  | .openBracket :: rest =>
    if tokenValueAllowed state then .ok (.delim .openBracket,⟨rest,.arrayStart,state :: stack⟩) else .error .syntaxError
  | .closeBracket :: rest =>
    if state = .arrayStart ∨ state = .arrayComma then pop .closeBracket rest stack else .error .syntaxError
  | .openBrace :: rest =>
    if tokenValueAllowed state then .ok (.delim .openBrace,⟨rest,.objectStart,state :: stack⟩) else .error .syntaxError
  | .closeBrace :: rest =>
    if state = .objectStart ∨ state = .objectComma then pop .closeBrace rest stack else .error .syntaxError
  | .colon :: rest => if state = .objectColon then nextToken .objectValue stack rest else .error .syntaxError
  | .comma :: rest =>
    if state = .arrayComma then nextToken .arrayValue stack rest
    else if state = .objectComma then nextToken .objectKey stack rest
    else .error .syntaxError
  | .scalar (.string s) :: rest =>
    if state = .objectStart ∨ state = .objectKey then .ok (.scalar (.string s),⟨rest,.objectColon,stack⟩)
    else if tokenValueAllowed state then .ok (.scalar (.string s),⟨rest,tokenValueEnd state,stack⟩)
    else .error .syntaxError
  | .scalar s :: rest =>
    if tokenValueAllowed state then .ok (.scalar s,⟨rest,tokenValueEnd state,stack⟩) else .error .syntaxError
  | .bad :: _ => .error .syntaxError

namespace Decoder

def Token (d : Decoder) : Except TokenError (Json.Token × Decoder) := nextToken d.tokenState d.tokenStack d.rest

def More (d : Decoder) : Bool :=
  match d.rest with
  | [] => false
  | x :: _ => x ≠ .closeBracket ∧ x ≠ .closeBrace

/-- The separator before a value. -/
def tokenPrepareForDecode (d : Decoder) : Except TokenError Decoder :=
  match d.tokenState,d.rest with
  | .arrayComma,[] => .error .eof
  | .arrayComma,.comma :: rest => .ok { d with rest := rest, tokenState := .arrayValue }
  | .arrayComma,_ => .error .syntaxError
  | .objectColon,[] => .error .eof
  | .objectColon,.colon :: rest => .ok { d with rest := rest, tokenState := .objectValue }
  | .objectColon,_ => .error .syntaxError
  | _,_ => .ok d

/-- The value that is decoded. -/
def Decode (limit : Nat) (d : Decoder) : Except TokenError (Value × Decoder) :=
  match d.tokenPrepareForDecode with
  | .error e => .error e
  | .ok d =>
    if tokenValueAllowed d.tokenState then
      match readValue limit d.rest with
      | none => .error .syntaxError
      | some (v,rest) => .ok (v,{ d with rest := rest, tokenState := tokenValueEnd d.tokenState })
    else .error .syntaxError

end Decoder

section Progress

attribute [local simp] nextToken

theorem pop_shorter {d : Delim} {rest : List Lexeme} {stack : List TokenState} {t : Token} {d' : Decoder}
    (popped : pop d rest stack = .ok (t,d')) : d'.rest = rest := by
  cases stack with
  | nil => contradiction
  | cons state stack =>
    cases Except.ok.inj popped
    rfl

/-- Every token takes at least one lexeme. -/
theorem nextToken_shorter {state : TokenState} {stack : List TokenState} {l : List Lexeme} {t : Token} {d : Decoder}
    (found : nextToken state stack l = .ok (t,d)) : d.rest.length < l.length := by
  induction l generalizing state with
  | nil => contradiction
  | cons x rest ih =>
    have one (same : d.rest = rest) : d.rest.length < (x :: rest).length := by simp [same]
    have later {state : TokenState} (found : nextToken state stack rest = .ok (t,d)) : d.rest.length < (x :: rest).length :=
      Nat.lt_trans (ih found) (Nat.lt_succ_self _)
    have allowed {p : Prop} [Decidable p] {t' : Token} {state : TokenState} {stack : List TokenState}
        (found : (if p then .ok (t',⟨rest,state,stack⟩) else .error .syntaxError : Except TokenError (Token × Decoder)) = .ok (t,d)) :
        d.rest.length < (x :: rest).length := by
      split at found
      next =>
        cases Except.ok.inj found
        exact Nat.lt_succ_self _
      next => contradiction
    cases x with
    | openBracket => exact allowed found
    | closeBracket =>
      rw [nextToken] at found
      split at found
      next => exact one (pop_shorter found)
      next => contradiction
    | openBrace => exact allowed found
    | closeBrace =>
      rw [nextToken] at found
      split at found
      next => exact one (pop_shorter found)
      next => contradiction
    | colon =>
      rw [nextToken] at found
      split at found
      next => exact later found
      next => contradiction
    | comma =>
      rw [nextToken] at found
      split at found
      next => exact later found
      next =>
        split at found
        next => exact later found
        next => contradiction
    | scalar s =>
      cases s with
      | string key =>
        rw [nextToken] at found
        split at found
        next =>
          cases Except.ok.inj found
          exact Nat.lt_succ_self _
        next => exact allowed found
      | _ => exact allowed found
    | bad => contradiction

theorem prepare_shorter {d d' : Decoder} (found : d.tokenPrepareForDecode = .ok d') : d'.rest.length ≤ d.rest.length := by
  unfold Decoder.tokenPrepareForDecode at found
  split at found
  next => contradiction
  next rest _ same =>
    cases Except.ok.inj found
    simp [same]
  next => contradiction
  next => contradiction
  next rest _ same =>
    cases Except.ok.inj found
    simp [same]
  next => contradiction
  next => exact (Except.ok.inj found) ▸ Nat.le_refl _

theorem Decode_shorter {limit : Nat} {d d' : Decoder} {v : Value} (found : d.Decode limit = .ok (v,d')) :
    d'.rest.length < d.rest.length := by
  unfold Decoder.Decode at found
  split at found
  next => contradiction
  next prepared known =>
    split at found
    next =>
      split at found
      next => contradiction
      next v' rest read =>
        cases Except.ok.inj found
        exact Nat.lt_of_lt_of_le (run_shorter read) (prepare_shorter known)
    next => contradiction

end Progress

section States
variable {limit : Nat} {l : List Lexeme} {s : TokenState} {stack : List TokenState} {d : Decoder}

theorem More_false {state : TokenState} (less : Decoder.More ⟨l,state,stack⟩ = false) :
    l = [] ∨ (∃ rest, l = .closeBracket :: rest) ∨ ∃ rest, l = .closeBrace :: rest := by
  cases l with
  | nil => exact .inl rfl
  | cons x rest =>
    cases x with
    | closeBracket => exact .inr (.inl ⟨rest,rfl⟩)
    | closeBrace => exact .inr (.inr ⟨rest,rfl⟩)
    | _ => simp [Decoder.More] at less

/-- Without more elements an array can only end. -/
theorem nextToken_closeBracket {state : TokenState} (inArray : state = .arrayStart ∨ state = .arrayComma)
    (less : Decoder.More ⟨l,state,s :: stack⟩ = false) :
    nextToken state (s :: stack) l = .ok (.delim .closeBracket,d) ↔ l = .closeBracket :: d.rest ∧ d = ⟨d.rest,tokenValueEnd s,stack⟩ := by
  rcases More_false less with rfl | ⟨rest,rfl⟩ | ⟨rest,rfl⟩
  · simp [nextToken]
  · rw [nextToken,if_pos inArray,pop]
    simp only [Except.ok.injEq,Prod.mk.injEq,true_and,List.cons.injEq]
    exact ⟨fun same => same ▸ ⟨rfl,rfl⟩,fun same => by rw [same.1]; exact same.2.symm⟩
  · rcases inArray with rfl | rfl
    · simp [nextToken]
    · simp [nextToken]

theorem nextToken_closeBrace {state : TokenState} (inObject : state = .objectStart ∨ state = .objectComma)
    (less : Decoder.More ⟨l,state,s :: stack⟩ = false) :
    nextToken state (s :: stack) l = .ok (.delim .closeBrace,d) ↔ l = .closeBrace :: d.rest ∧ d = ⟨d.rest,tokenValueEnd s,stack⟩ := by
  rcases More_false less with rfl | ⟨rest,rfl⟩ | ⟨rest,rfl⟩
  · simp [nextToken]
  · rcases inObject with rfl | rfl
    · simp [nextToken]
    · simp [nextToken]
  · rw [nextToken,if_pos inObject,pop]
    simp only [Except.ok.injEq,Prod.mk.injEq,true_and,List.cons.injEq]
    exact ⟨fun same => same ▸ ⟨rfl,rfl⟩,fun same => by rw [same.1]; exact same.2.symm⟩

theorem Decode_value {state : TokenState} (allowed : tokenValueAllowed state = true) {v : Value} :
    Decoder.Decode limit ⟨l,state,stack⟩ = .ok (v,d) ↔ readValue limit l = some (v,d.rest) ∧ d = ⟨d.rest,tokenValueEnd state,stack⟩ := by
  have ready : Decoder.tokenPrepareForDecode ⟨l,state,stack⟩ = .ok ⟨l,state,stack⟩ := by
    cases state with
    | _ => first | rfl | contradiction
  rw [Decoder.Decode,ready]
  dsimp only
  rw [if_pos allowed]
  split
  next none => simp [none]
  next v' rest read =>
    rw [read]
    simp only [Except.ok.injEq,Prod.mk.injEq,Option.some.injEq]
    constructor
    · rintro ⟨rfl,rfl⟩
      exact ⟨⟨rfl,rfl⟩,rfl⟩
    · rintro ⟨⟨rfl,rfl⟩,same⟩
      exact ⟨rfl,same.symm⟩

theorem Decode_arrayComma {v : Value} :
    Decoder.Decode limit ⟨l,.arrayComma,stack⟩ = .ok (v,d) ↔
      ∃ l', l = .comma :: l' ∧ readValue limit l' = some (v,d.rest) ∧ d = ⟨d.rest,.arrayComma,stack⟩ := by
  cases l with
  | nil => simp [Decoder.Decode,Decoder.tokenPrepareForDecode]
  | cons x rest =>
    cases x with
    | comma =>
      have after : Decoder.Decode limit ⟨.comma :: rest,.arrayComma,stack⟩ = Decoder.Decode limit ⟨rest,.arrayValue,stack⟩ := rfl
      rw [after,Decode_value rfl]
      simp [tokenValueEnd]
    | _ => simp [Decoder.Decode,Decoder.tokenPrepareForDecode]

theorem nextToken_key {key : String} :
    nextToken .objectStart stack l = .ok (.scalar (.string key),d) ↔ ∃ l', l = .scalar (.string key) :: l' ∧ d = ⟨l',.objectColon,stack⟩ := by
  cases l with
  | nil => simp [nextToken]
  | cons x rest =>
    cases x with
    | scalar s =>
      cases s with
      | string k => simp [nextToken,eq_comm]
      | _ => simp [nextToken,tokenValueAllowed]
    | closeBrace =>
      cases stack with
      | nil => simp [nextToken,pop]
      | cons s stack => simp [nextToken,pop]
    | _ => simp [nextToken,tokenValueAllowed]

theorem nextToken_comma_key {key : String} :
    nextToken .objectComma stack l = .ok (.scalar (.string key),d) ↔
      ∃ l', l = .comma :: .scalar (.string key) :: l' ∧ d = ⟨l',.objectColon,stack⟩ := by
  cases l with
  | nil => simp [nextToken]
  | cons x rest =>
    cases x with
    | comma =>
      cases rest with
      | nil => simp [nextToken]
      | cons y rest =>
        cases y with
        | scalar s =>
          cases s with
          | string k => simp [nextToken,eq_comm]
          | _ => simp [nextToken,tokenValueAllowed]
        | _ => simp [nextToken,tokenValueAllowed]
    | closeBrace =>
      cases stack with
      | nil => simp [nextToken,pop]
      | cons s stack => simp [nextToken,pop]
    | scalar s =>
      cases s with
      | _ => simp [nextToken,tokenValueAllowed]
    | _ => simp [nextToken,tokenValueAllowed]

theorem nextToken_objectValue {t : Token} :
    nextToken .objectColon stack l = .ok (t,d) ↔ ∃ l', l = .colon :: l' ∧ nextToken .objectValue stack l' = .ok (t,d) := by
  cases l with
  | nil => simp [nextToken]
  | cons x rest =>
    cases x with
    | colon => simp [nextToken]
    | scalar s =>
      cases s with
      | _ => simp [nextToken,tokenValueAllowed]
    | _ => simp [nextToken,tokenValueAllowed]

theorem nextToken_colon_openBracket :
    nextToken .objectColon stack l = .ok (.delim .openBracket,d) ↔
      ∃ l', l = .colon :: .openBracket :: l' ∧ d = ⟨l',.arrayStart,.objectValue :: stack⟩ := by
  rw [nextToken_objectValue]
  constructor
  · rintro ⟨l',rfl,token⟩
    cases l' with
    | nil => simp [nextToken] at token
    | cons y rest =>
      cases y with
      | openBracket => exact ⟨rest,rfl,by simpa [nextToken,tokenValueAllowed,eq_comm] using token⟩
      | scalar s =>
        cases s with
        | _ => simp [nextToken,tokenValueAllowed] at token
      | _ => simp [nextToken,tokenValueAllowed] at token
  · rintro ⟨l',rfl,rfl⟩
    exact ⟨_,rfl,rfl⟩

theorem nextToken_colon_string {text : String} :
    nextToken .objectColon stack l = .ok (.scalar (.string text),d) ↔
      ∃ l', l = .colon :: .scalar (.string text) :: l' ∧ d = ⟨l',.objectComma,stack⟩ := by
  rw [nextToken_objectValue]
  constructor
  · rintro ⟨l',rfl,token⟩
    cases l' with
    | nil => simp [nextToken] at token
    | cons y rest =>
      cases y with
      | scalar s =>
        cases s with
        | string k =>
          simp only [nextToken,reduceCtorEq,or_self,if_false,tokenValueAllowed,if_true,tokenValueEnd,Except.ok.injEq,Prod.mk.injEq,
            Token.scalar.injEq,Scalar.string.injEq] at token
          exact ⟨rest,by rw [token.1],token.2.symm⟩
        | _ => simp [nextToken,tokenValueAllowed] at token
      | _ => simp [nextToken,tokenValueAllowed] at token
  · rintro ⟨l',rfl,rfl⟩
    exact ⟨_,rfl,rfl⟩

theorem nextToken_colon_closeBrace : nextToken .objectColon stack l ≠ .ok (.delim .closeBrace,d) := by
  rw [Ne,nextToken_objectValue]
  rintro ⟨l',rfl,token⟩
  cases l' with
  | nil => simp [nextToken] at token
  | cons y rest =>
    cases y with
    | scalar s =>
      cases s with
      | _ => simp [nextToken,tokenValueAllowed] at token
    | _ => simp [nextToken,tokenValueAllowed] at token

theorem nextToken_comma_openBracket : nextToken .objectComma stack l ≠ .ok (.delim .openBracket,d) := by
  cases l with
  | nil => simp [nextToken]
  | cons x rest =>
    cases x with
    | comma =>
      cases rest with
      | nil => simp [nextToken]
      | cons y rest =>
        cases y with
        | scalar s =>
          cases s with
          | _ => simp [nextToken,tokenValueAllowed]
        | _ => simp [nextToken,tokenValueAllowed]
    | closeBrace =>
      cases stack with
      | nil => simp [nextToken,pop]
      | cons s stack => simp [nextToken,pop]
    | scalar s =>
      cases s with
      | _ => simp [nextToken,tokenValueAllowed]
    | _ => simp [nextToken,tokenValueAllowed]

theorem nextToken_openBrace :
    nextToken .topValue [] l = .ok (.delim .openBrace,d) ↔ ∃ l', l = .openBrace :: l' ∧ d = ⟨l',.objectStart,[.topValue]⟩ := by
  cases l with
  | nil => simp [nextToken]
  | cons x rest =>
    cases x with
    | openBrace => simp [nextToken,tokenValueAllowed,eq_comm]
    | scalar s =>
      cases s with
      | _ => simp [nextToken,tokenValueAllowed]
    | _ => simp [nextToken,tokenValueAllowed]

end States

end Vbe.Library.Json
