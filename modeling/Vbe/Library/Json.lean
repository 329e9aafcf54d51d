import Mathlib.Data.List.Basic

/-! Values of JSON, read from lexemes by a scanner with a stack and a bound on the nesting. -/
namespace Vbe.Library.Json

inductive Scalar where
  | null
  | bool (b : Bool)
  | number (text : String)
  | string (s : String)
deriving DecidableEq

/-- `bad` stands for what is no lexeme, such as a text without its end. -/
inductive Lexeme where
  | openBracket
  | closeBracket
  | openBrace
  | closeBrace
  | colon
  | comma
  | scalar (s : Scalar)
  | bad
deriving DecidableEq

inductive Value where
  | scalar (s : Scalar)
  | array (elements : List Value)
  | object (fields : List (String × Value))

/-- A container that waits for one of its values. -/
inductive Frame where
  | element (before : List Value)
  | field (before : List (String × Value)) (key : String)

/-- What the scanner expects inside of some frames. -/
inductive Mode where
  | value
  | elements
  | afterElement (before : List Value)
  | fields
  | key (before : List (String × Value))
  | colon (before : List (String × Value)) (key : String)
  | afterField (before : List (String × Value))

/-- The whole value has been read, or the scanner goes on. -/
inductive Step where
  | done (v : Value)
  | go (stack : List Frame) (mode : Mode)

def complete : List Frame → Value → Step
  | [], v => .done v
  | .element before :: stack, v => .go stack (.afterElement (before ++ [v]))
  | .field before key :: stack, v => .go stack (.afterField (before ++ [(key,v)]))

section Scanner
variable (limit : Nat)

def begin (stack : List Frame) : Lexeme → Option Step
  | .scalar s => some (complete stack (.scalar s))
  | .openBracket => if stack.length < limit then some (.go stack .elements) else none
  | .openBrace => if stack.length < limit then some (.go stack .fields) else none
  | _ => none

def step (stack : List Frame) : Mode → Lexeme → Option Step
  | .value, x => begin limit stack x
  | .elements, .closeBracket => some (complete stack (.array []))
  | .elements, x => begin limit (.element [] :: stack) x
  | .afterElement before, .comma => some (.go (.element before :: stack) .value)
  | .afterElement before, .closeBracket => some (complete stack (.array before))
  | .fields, .closeBrace => some (complete stack (.object []))
  | .fields, .scalar (.string key) => some (.go stack (.colon [] key))
  | .key before, .scalar (.string key) => some (.go stack (.colon before key))
  | .colon before key, .colon => some (.go (.field before key :: stack) .value)
  | .afterField before, .comma => some (.go stack (.key before))
  | .afterField before, .closeBrace => some (complete stack (.object before))
  | _, _ => none

/-- The value that is completed and the lexemes after it. -/
def run : List Frame → Mode → List Lexeme → Option (Value × List Lexeme)
  | _, _, [] => none
  | stack, mode, x :: rest =>
    match step limit stack mode x with
    | none => none
    | some (.done v) => some (v,rest)
    | some (.go stack mode) => run stack mode rest

def readValue (l : List Lexeme) : Option (Value × List Lexeme) := run limit [] .value l

end Scanner

section Nesting
variable {limit : Nat}

attribute [local simp] begin step

/-- The same step inside of more frames. -/
def Step.under (below : List Frame) : Step → Step
  | .done v => complete below v
  | .go stack mode => .go (stack ++ below) mode

def resume (limit : Nat) : Step → List Lexeme → Option (Value × List Lexeme)
  | .done v, rest => some (v,rest)
  | .go stack mode, rest => run limit stack mode rest

theorem run_cons (stack : List Frame) (mode : Mode) (x : Lexeme) (rest : List Lexeme) :
    run limit stack mode (x :: rest) = (step limit stack mode x).bind fun s => resume limit s rest := by
  rw [run]
  cases step limit stack mode x with
  | none => rfl
  | some s =>
    cases s with
    | done v => rfl
    | go stack mode => rfl

theorem complete_append (stack below : List Frame) (v : Value) : complete (stack ++ below) v = (complete stack v).under below := by
  cases stack with
  | nil => rfl
  | cons frame stack =>
    cases frame with
    | element before => rfl
    | field before key => rfl

theorem begin_append (stack below : List Frame) (x : Lexeme) :
    begin (limit + below.length) (stack ++ below) x = (begin limit stack x).map (Step.under below) := by
  have room : (stack ++ below).length < limit + below.length ↔ stack.length < limit := by
    rw [List.length_append]
    omega
  cases x with
  | scalar s => simp [begin,complete_append]
  | openBracket =>
    simp only [begin,room]
    split
    next => rfl
    next => rfl
  | openBrace =>
    simp only [begin,room]
    split
    next => rfl
    next => rfl
  | _ => rfl

theorem step_append (stack below : List Frame) (mode : Mode) (x : Lexeme) :
    step (limit + below.length) (stack ++ below) mode x = (step limit stack mode x).map (Step.under below) := by
  have first := @begin_append limit (.element [] :: stack) below x
  rw [List.cons_append] at first
  cases mode with
  | value => exact begin_append stack below x
  | elements =>
    cases x with
    | closeBracket => simp [step,complete_append]
    | _ => exact first
  | afterElement before =>
    cases x with
    | closeBracket => simp [step,complete_append]
    | _ => rfl
  | fields =>
    cases x with
    | closeBrace => simp [step,complete_append]
    | scalar s =>
      cases s with
      | _ => rfl
    | _ => rfl
  | key before =>
    cases x with
    | scalar s =>
      cases s with
      | _ => rfl
    | _ => rfl
  | colon before key =>
    cases x with
    | _ => rfl
  | afterField before =>
    cases x with
    | closeBrace => simp [step,complete_append]
    | _ => rfl

/-- Inside of more frames the same is read, and then they go on. -/
theorem run_append (stack below : List Frame) (mode : Mode) (l : List Lexeme) :
    run (limit + below.length) (stack ++ below) mode l =
      (run limit stack mode l).bind fun r => resume (limit + below.length) (complete below r.1) r.2 := by
  induction l generalizing stack mode with
  | nil => rfl
  | cons x rest ih =>
    rw [run_cons,run_cons,step_append]
    cases step limit stack mode x with
    | none => rfl
    | some s =>
      cases s with
      | done v => rfl
      | go stack mode => exact ih stack mode

theorem run_value (below : List Frame) (l : List Lexeme) :
    run (limit + below.length) below .value l =
      (readValue limit l).bind fun r => resume (limit + below.length) (complete below r.1) r.2 :=
  run_append [] below .value l

theorem begin_mono {limit' : Nat} (le : limit ≤ limit') {stack : List Frame} {x : Lexeme} {s : Step}
    (found : begin limit stack x = some s) : begin limit' stack x = some s := by
  unfold begin at *
  split at found
  next => exact found
  next =>
    split at found
    next room => rwa [if_pos (Nat.lt_of_lt_of_le room le)]
    next => contradiction
  next =>
    split at found
    next room => rwa [if_pos (Nat.lt_of_lt_of_le room le)]
    next => contradiction
  next => contradiction

theorem step_mono {limit' : Nat} (le : limit ≤ limit') {stack : List Frame} {mode : Mode} {x : Lexeme} {s : Step}
    (found : step limit stack mode x = some s) : step limit' stack mode x = some s := by
  unfold step at *
  split at found
  next => exact begin_mono le found
  next => exact found
  next => exact begin_mono le found
  all_goals exact found

theorem run_mono {limit' : Nat} (le : limit ≤ limit') {stack : List Frame} {mode : Mode} {l : List Lexeme} {r : Value × List Lexeme}
    (found : run limit stack mode l = some r) : run limit' stack mode l = some r := by
  induction l generalizing stack mode with
  | nil => contradiction
  | cons x rest ih =>
    rw [run_cons] at found ⊢
    obtain ⟨s,first,resumed⟩ := Option.bind_eq_some_iff.mp found
    rw [step_mono le first]
    cases s with
    | done v => exact resumed
    | go stack mode => exact ih resumed

/-- A value takes at least one lexeme. -/
theorem run_shorter {stack : List Frame} {mode : Mode} {l : List Lexeme} {r : Value × List Lexeme}
    (found : run limit stack mode l = some r) : r.2.length < l.length := by
  induction l generalizing stack mode with
  | nil => contradiction
  | cons x rest ih =>
    rw [run_cons] at found
    obtain ⟨s,-,resumed⟩ := Option.bind_eq_some_iff.mp found
    cases s with
    | done v =>
      cases Option.some.inj resumed
      exact Nat.lt_succ_self _
    | go stack mode => exact Nat.lt_trans (ih resumed) (Nat.lt_succ_self _)

end Nesting

section Reading
variable {limit : Nat}

/-- The next element follows, and then the rest of the array. -/
theorem run_element (before : List Value) (l : List Lexeme) :
    run (limit + 1) [.element before] .value l =
      (readValue limit l).bind fun r => run (limit + 1) [] (.afterElement (before ++ [r.1])) r.2 := run_value [.element before] l

theorem run_afterElement {before : List Value} {l : List Lexeme} {r : Value × List Lexeme} :
    run (limit + 1) [] (.afterElement before) l = some r ↔
      l = .closeBracket :: r.2 ∧ r.1 = .array before ∨
        ∃ rest next, l = .comma :: rest ∧ readValue limit rest = some next ∧
          run (limit + 1) [] (.afterElement (before ++ [next.1])) next.2 = some r := by
  cases l with
  | nil => simp [run]
  | cons x rest =>
    rw [run_cons]
    cases x with
    | closeBracket => simp [step,complete,resume,Prod.ext_iff,eq_comm,and_comm]
    | comma =>
      have next := @run_element limit before rest
      simp [step,resume,next,Option.bind_eq_some_iff]
    | _ => simp [step]

theorem run_elements {l : List Lexeme} {r : Value × List Lexeme} :
    run (limit + 1) [] .elements l = some r ↔
      l = .closeBracket :: r.2 ∧ r.1 = .array [] ∨
        (∀ rest, l ≠ .closeBracket :: rest) ∧ ∃ next, readValue limit l = some next ∧
          run (limit + 1) [] (.afterElement [next.1]) next.2 = some r := by
  cases l with
  | nil => simp [run,readValue]
  | cons x rest =>
    have value := @run_element limit [] (x :: rest)
    rw [run_cons] at value
    rw [run_cons]
    cases x with
    | closeBracket => simp [step,complete,resume,Prod.ext_iff,eq_comm,and_comm]
    | _ =>
      change (step (limit + 1) [.element []] .value _).bind _ = some r ↔ _
      rw [value]
      simp [Option.bind_eq_some_iff]

theorem run_colon {before : List (String × Value)} {key : String} {l : List Lexeme} {r : Value × List Lexeme} :
    run (limit + 1) [] (.colon before key) l = some r ↔
      ∃ rest next, l = .colon :: rest ∧ readValue limit rest = some next ∧
        run (limit + 1) [] (.afterField (before ++ [(key,next.1)])) next.2 = some r := by
  cases l with
  | nil => simp [run]
  | cons x rest =>
    rw [run_cons]
    cases x with
    | colon =>
      have next : run (limit + 1) [.field before key] .value rest =
          (readValue limit rest).bind fun r => run (limit + 1) [] (.afterField (before ++ [(key,r.1)])) r.2 :=
        run_value [.field before key] rest
      simp [step,resume,next,Option.bind_eq_some_iff]
    | _ => simp [step]

theorem run_fields {l : List Lexeme} {r : Value × List Lexeme} :
    run (limit + 1) [] .fields l = some r ↔
      l = .closeBrace :: r.2 ∧ r.1 = .object [] ∨
        ∃ key rest, l = .scalar (.string key) :: rest ∧ run (limit + 1) [] (.colon [] key) rest = some r := by
  cases l with
  | nil => simp [run]
  | cons x rest =>
    rw [run_cons]
    cases x with
    | closeBrace => simp [step,complete,resume,Prod.ext_iff,eq_comm,and_comm]
    | scalar s =>
      cases s with
      | string key => simp [step,resume]
      | _ => simp [step]
    | _ => simp [step]

theorem run_afterField {before : List (String × Value)} {l : List Lexeme} {r : Value × List Lexeme} :
    run (limit + 1) [] (.afterField before) l = some r ↔
      l = .closeBrace :: r.2 ∧ r.1 = .object before ∨
        ∃ key rest, l = .comma :: .scalar (.string key) :: rest ∧ run (limit + 1) [] (.colon before key) rest = some r := by
  cases l with
  | nil => simp [run]
  | cons x rest =>
    rw [run_cons]
    cases x with
    | closeBrace => simp [step,complete,resume,Prod.ext_iff,eq_comm,and_comm]
    | comma =>
      change run (limit + 1) [] (.key before) rest = some r ↔ _
      cases rest with
      | nil => simp [run]
      | cons x rest =>
        rw [run_cons]
        cases x with
        | scalar s =>
          cases s with
          | string key => simp [step,resume]
          | _ => simp [step]
        | _ => simp [step]
    | _ => simp [step]

/-- After an element of an array come others, up to the end of the array. -/
inductive Elements (limit : Nat) : List Lexeme → List Value → List Lexeme → Prop where
  | close {rest : List Lexeme} : Elements limit (.closeBracket :: rest) [] rest
  | next {l rest : List Lexeme} {read : Value × List Lexeme} {vs : List Value} :
    readValue limit l = some read → Elements limit read.2 vs rest → Elements limit (.comma :: l) (read.1 :: vs) rest

/-- After a field of an object come others, up to the end of the object. -/
inductive Fields (limit : Nat) : List Lexeme → List (String × Value) → List Lexeme → Prop where
  | close {rest : List Lexeme} : Fields limit (.closeBrace :: rest) [] rest
  | next {l rest : List Lexeme} {key : String} {read : Value × List Lexeme} {fs : List (String × Value)} :
    readValue limit l = some read → Fields limit read.2 fs rest →
      Fields limit (.comma :: .scalar (.string key) :: .colon :: l) ((key,read.1) :: fs) rest

theorem run_afterElement_iff {before : List Value} {l : List Lexeme} {r : Value × List Lexeme} :
    run (limit + 1) [] (.afterElement before) l = some r ↔ ∃ vs, Elements limit l vs r.2 ∧ r.1 = .array (before ++ vs) := by
  constructor
  · intro found
    induction size : l.length using Nat.strongRecOn generalizing l before with
    | ind n ih =>
      rcases run_afterElement.mp found with ⟨rfl,same⟩ | ⟨rest,next,rfl,read,found⟩
      · exact ⟨[],.close,by rw [List.append_nil,same]⟩
      · have shorter := run_shorter read
        obtain ⟨vs,later,same⟩ := ih next.2.length (by simp at size; omega) found rfl
        exact ⟨next.1 :: vs,.next read later,by rw [same,List.append_assoc]; rfl⟩
  · rintro ⟨vs,later,same⟩
    obtain ⟨v,rest⟩ := r
    dsimp only at later same
    induction later generalizing before with
    | close => exact run_afterElement.mpr (.inl ⟨rfl,by rw [same,List.append_nil]⟩)
    | next read _ ih =>
      refine run_afterElement.mpr (.inr ⟨_,_,rfl,read,ih ?_⟩)
      rw [same,List.append_assoc]
      rfl

theorem run_afterField_iff {before : List (String × Value)} {l : List Lexeme} {r : Value × List Lexeme} :
    run (limit + 1) [] (.afterField before) l = some r ↔ ∃ fs, Fields limit l fs r.2 ∧ r.1 = .object (before ++ fs) := by
  constructor
  · intro found
    induction size : l.length using Nat.strongRecOn generalizing l before with
    | ind n ih =>
      rcases run_afterField.mp found with ⟨rfl,same⟩ | ⟨key,rest,rfl,found⟩
      · exact ⟨[],.close,by rw [List.append_nil,same]⟩
      · obtain ⟨rest,next,rfl,read,found⟩ := run_colon.mp found
        have shorter := run_shorter read
        obtain ⟨fs,later,same⟩ := ih next.2.length (by simp at size; omega) found rfl
        exact ⟨(key,next.1) :: fs,.next read later,by rw [same,List.append_assoc]; rfl⟩
  · rintro ⟨fs,later,same⟩
    obtain ⟨v,rest⟩ := r
    dsimp only at later same
    induction later generalizing before with
    | close => exact run_afterField.mpr (.inl ⟨rfl,by rw [same,List.append_nil]⟩)
    | next read _ ih =>
      refine run_afterField.mpr (.inr ⟨_,_,rfl,run_colon.mpr ⟨_,_,rfl,read,ih ?_⟩⟩)
      rw [same,List.append_assoc]
      rfl

/-- After the beginning of an array. -/
def ArrayText (limit : Nat) (l : List Lexeme) (vs : List Value) (rest : List Lexeme) : Prop :=
  l = .closeBracket :: rest ∧ vs = [] ∨
    (∀ rest, l ≠ .closeBracket :: rest) ∧ ∃ read more, readValue limit l = some read ∧ Elements limit read.2 more rest ∧ vs = read.1 :: more

/-- After the beginning of an object. -/
def ObjectText (limit : Nat) (l : List Lexeme) (fs : List (String × Value)) (rest : List Lexeme) : Prop :=
  l = .closeBrace :: rest ∧ fs = [] ∨
    ∃ key l' read more, l = .scalar (.string key) :: .colon :: l' ∧ readValue limit l' = some read ∧
      Fields limit read.2 more rest ∧ fs = (key,read.1) :: more

theorem readValue_array {l : List Lexeme} {r : Value × List Lexeme} :
    readValue (limit + 1) (.openBracket :: l) = some r ↔ ∃ vs, ArrayText limit l vs r.2 ∧ r.1 = .array vs := by
  have begun : readValue (limit + 1) (.openBracket :: l) = run (limit + 1) [] .elements l := by
    rw [readValue,run_cons]
    rfl
  rw [begun,run_elements]
  constructor
  · rintro (⟨rfl,same⟩ | ⟨notEnd,next,read,found⟩)
    · exact ⟨[],.inl ⟨rfl,rfl⟩,same⟩
    · obtain ⟨vs,later,same⟩ := run_afterElement_iff.mp found
      exact ⟨_,.inr ⟨notEnd,next,vs,read,later,rfl⟩,same⟩
  · rintro ⟨vs,⟨rfl,rfl⟩ | ⟨notEnd,next,more,read,later,rfl⟩,same⟩
    · exact .inl ⟨rfl,same⟩
    · exact .inr ⟨notEnd,next,read,run_afterElement_iff.mpr ⟨more,later,same⟩⟩

theorem readValue_object {l : List Lexeme} {r : Value × List Lexeme} :
    readValue (limit + 1) (.openBrace :: l) = some r ↔ ∃ fs, ObjectText limit l fs r.2 ∧ r.1 = .object fs := by
  have begun : readValue (limit + 1) (.openBrace :: l) = run (limit + 1) [] .fields l := by
    rw [readValue,run_cons]
    rfl
  rw [begun,run_fields]
  constructor
  · rintro (⟨rfl,same⟩ | ⟨key,rest,rfl,found⟩)
    · exact ⟨[],.inl ⟨rfl,rfl⟩,same⟩
    · obtain ⟨rest,next,rfl,read,found⟩ := run_colon.mp found
      obtain ⟨fs,later,same⟩ := run_afterField_iff.mp found
      exact ⟨_,.inr ⟨key,rest,next,fs,rfl,read,later,rfl⟩,same⟩
  · rintro ⟨fs,⟨rfl,rfl⟩ | ⟨key,rest,next,more,rfl,read,later,rfl⟩,same⟩
    · exact .inl ⟨rfl,same⟩
    · exact .inr ⟨key,_,rfl,run_colon.mpr ⟨rest,next,rfl,read,run_afterField_iff.mpr ⟨more,later,same⟩⟩⟩

/-- Only a brace begins an object, and only a bracket an array. -/
theorem readValue_cases {l : List Lexeme} {r : Value × List Lexeme} (found : readValue limit l = some r) :
    (∃ s, l = .scalar s :: r.2 ∧ r.1 = .scalar s) ∨
      0 < limit ∧ ((∃ rest, l = .openBracket :: rest) ∨ ∃ rest, l = .openBrace :: rest) := by
  cases l with
  | nil => contradiction
  | cons x rest =>
    rw [readValue,run_cons] at found
    cases x with
    | scalar s =>
      cases Option.some.inj found
      exact .inl ⟨s,rfl,rfl⟩
    | openBracket =>
      by_cases room : 0 < limit
      · exact .inr ⟨room,.inl ⟨rest,rfl⟩⟩
      · simp [step,begin,room] at found
    | openBrace =>
      by_cases room : 0 < limit
      · exact .inr ⟨room,.inr ⟨rest,rfl⟩⟩
      · simp [step,begin,room] at found
    | _ => contradiction

end Reading

end Vbe.Library.Json
