import Vbe.Wildcard.Checked
import Vbe.Wildcard.Meaning
import Vbe.Wildcard.Twins

/-! Sequences in brackets as they are written, and how they are read behind other runes. A class is known only
where its name is longer than what is before it. -/
namespace Vbe.Wildcard

variable (u : Unicode)

/-- The runes with a meaning in patterns, and the end of a text. -/
def special : List Rune := ['/','[',']','\\',':','-','!','*','?',NUL]

/-- The runes with a meaning in patterns are neither spaces nor letters. -/
structure Ordinary : Prop where
  kept : ∀ c ∈ special, u.IsUpper c = false ∧ u.ToLower c = c ∧ u.IsSpace c = false

section Grammar

/-- A rune as it is written in a sequence. -/
inductive Bound
  | plain (c : Rune)
  | escaped (c : Rune)

namespace Bound

def ch : Bound → Rune
  | plain c => c
  | escaped c => c

def runes : Bound → List Rune
  | plain c => [c]
  | escaped c => ['\\',c]

def Fits (ignoreCase : Bool) : Bound → Prop
  | plain c => fold u ignoreCase c ≠ ']' ∧ fold u ignoreCase c ≠ '\\' ∧ c ≠ NUL
  | escaped c => c ≠ NUL

end Bound

inductive Item
  | one (bound : Bound)
  | range (start stop : Bound)
  | ofClass (name : List Rune) (own : ClassName)

/-- Runes that a range would go on with. -/
def RangeAt (ignoreCase : Bool) (rest : List Rune) : Prop :=
  fold u ignoreCase (rest.getD 0 NUL) = '-' ∧ fold u ignoreCase (rest.getD 1 NUL) ≠ ']' ∧ fold u ignoreCase (rest.getD 1 NUL) ≠ NUL

/-- Runes that a class behind a bracket would go on with, up to some place. -/
def ClassAt (ignoreCase : Bool) (rest : List Rune) (k : Nat) : Prop :=
  fold u ignoreCase (rest.getD 0 NUL) = ':' ∧ indexOf rest ']' = k + 1 ∧ fold u ignoreCase (rest.getD k NUL) = ':'

namespace Item

def runes : Item → List Rune
  | one bound => bound.runes
  | range start stop => start.runes ++ '-' :: stop.runes
  | ofClass name _ => '[' :: ':' :: (name ++ [':',']'])

def token (ignoreCase negated : Bool) : Item → SeqToken
  | one bound => .rune (fold u ignoreCase bound.ch)
  | range start stop => .runeRange (fold u ignoreCase start.ch) (fold u ignoreCase stop.ch) negated
  | ofClass _ own => .ofClass own ignoreCase

/-- The item means itself before these runes. A bracket that is not escaped does not open a class. -/
def Fits (ignoreCase : Bool) (rest : List Rune) : Item → Prop
  | one bound => bound.Fits u ignoreCase ∧ ¬ RangeAt u ignoreCase rest ∧
      ∀ c, bound = .plain c → fold u ignoreCase c = '[' → ∀ k, ClassAt u ignoreCase rest k → k = 0
  | range start stop => start.Fits u ignoreCase ∧ stop.Fits u ignoreCase
  | ofClass name own => className (name.map u.ToLower) = some own

/-- The item is read as what it means behind so many runes. -/
def Placed (ignoreCase : Bool) (before : Nat) (rest : List Rune) : Item → Prop
  | one bound => fold u ignoreCase bound.ch = '[' → ∀ k, ClassAt u ignoreCase rest k → k ≤ before + bound.runes.length
  | range _ _ => True
  | ofClass name _ => before < name.length

end Item

def written (items : List Item) : List Rune := items.flatMap Item.runes

/-- Items before other runes. -/
def Fit (ignoreCase : Bool) (rest : List Rune) : List Item → Prop
  | [] => True
  | item :: items => item.Fits u ignoreCase (written items ++ rest) ∧ Fit ignoreCase rest items

def Placed (ignoreCase : Bool) (rest : List Rune) : Nat → List Item → Prop
  | _,[] => True
  | before,item :: items => item.Placed u ignoreCase before (written items ++ rest) ∧
      Placed ignoreCase rest (before + item.runes.length) items

structure Sequence where
  negated : Bool
  items : List Item

namespace Sequence

def opening (s : Sequence) : List Rune := if s.negated then ['[','!'] else ['[']

def runes (s : Sequence) : List Rune := s.opening ++ (written s.items ++ [']'])

def token (ignoreCase : Bool) (s : Sequence) : Token := .seq (s.items.map (·.token u ignoreCase s.negated)) s.negated

def Formed (ignoreCase : Bool) (s : Sequence) : Prop :=
  Fit u ignoreCase [']'] s.items ∧ (s.negated = false → fold u ignoreCase ((written s.items ++ [']']).getD 0 NUL) ≠ '!')

/-- Every item of the sequence is read as what it means where the sequence is behind so many runes. -/
def Placed (ignoreCase : Bool) (before : Nat) (s : Sequence) : Prop :=
  Wildcard.Placed u ignoreCase [']'] (before + s.opening.length) s.items

end Sequence

end Grammar

variable {u}

theorem Ordinary.fold_eq (ordinary : Ordinary u) {c : Rune} (meaning : c ∈ special) (ignoreCase : Bool) : fold u ignoreCase c = c := by
  rw [fold,(ordinary.kept c meaning).1,Bool.and_false]
  rfl

section Classes

theorem toList_of_ofList {name : List Rune} {own : String} (same : String.ofList name = own) : name = own.toList := by
  rw [← same,String.toList_ofList]

def classNames : List (List Rune) :=
  ["alnum","alpha","ascii","blank","cntrl","digit","graph","lower","print","punct","space","upper","xdigit"].map String.toList

theorem className_mem {name : List Rune} {own : ClassName} (known : className name = some own) : name ∈ classNames := by
  rw [className] at known
  split at known
  case h_14 => contradiction
  all_goals
    next same =>
      rw [toList_of_ofList same]
      decide

theorem classNames_plain (name : List Rune) (known : name ∈ classNames) (c : Rune) (member : c ∈ name) : c ∉ special := by
  have all : (classNames.all fun name => name.all fun c => decide (c ∉ special)) = true := by decide
  exact of_decide_eq_true (List.all_eq_true.mp (List.all_eq_true.mp all name known) c member)

/-- No rune of a class name has a meaning of its own. -/
theorem className_plain (ordinary : Ordinary u) {name : List Rune} {own : ClassName} (known : className (name.map u.ToLower) = some own)
    {c : Rune} (member : c ∈ name) : c ∉ special := by
  intro meaning
  have lower : c ∈ name.map u.ToLower := List.mem_map.mpr ⟨c,member,(ordinary.kept c meaning).2.1⟩
  exact classNames_plain _ (className_mem known) c lower meaning

theorem className_fold (ordinary : Ordinary u) {name : List Rune} {own : ClassName} (known : className (name.map u.ToLower) = some own)
    {c : Rune} (member : c ∈ name) (ignoreCase : Bool) : fold u ignoreCase c ∉ special := by
  rw [fold]
  split
  next => exact classNames_plain _ (className_mem known) _ (List.mem_map_of_mem member)
  next => exact className_plain ordinary known member

theorem indexOf_append {front : List Rune} {ch : Rune} (new : ch ∉ front) (rest : List Rune) :
    indexOf (front ++ ch :: rest) ch = front.length := by
  rw [indexOf_eq,if_pos (by simp),List.idxOf_append_of_notMem new,List.idxOf_cons_self]
  rfl

end Classes

section Turns
variable {ignoreCase : Bool} {s : RuneScanner} {n : Nat} {rest pattern : List Rune} {negatedSeq : Bool}

theorem At.cons_head {c : Rune} (place : At s n (c :: rest)) (meaning : c ∈ special) (ordinary : Ordinary u) : s.peek u 0 = c :=
  place.head.trans (ordinary.fold_eq meaning _)

variable (pattern) in
/-- A rune of a sequence is read as it is meant, escaped or not. -/
theorem readEscaped_bound (ordinary : Ordinary u) {b : Bound} (place : At s n (b.runes ++ rest)) (fits : b.Fits u s.ignoreCase) :
    ∃ s', At s' (n + b.runes.length) rest ∧ s'.ignoreCase = s.ignoreCase ∧
      readEscaped u pattern (s.peek u 0) (s.advance u) = .ok (fold u s.ignoreCase b.ch,s') := by
  cases b with
  | plain c =>
    obtain ⟨-,other,proper⟩ := fits
    have first : s.peek u 0 = fold u s.ignoreCase c := place.head
    refine ⟨s.advance u,place.advance proper,advance_ignoreCase s,?_⟩
    rw [first,readEscaped,if_neg other]
    rfl
  | escaped c =>
    have first : s.peek u 0 = '\\' := place.cons_head (by decide) ordinary
    have second : At (s.advance u) (n + 1) (c :: rest) := place.advance (by decide)
    have own : ((s.advance u).read u).1 = fold u s.ignoreCase c := by
      rw [← advance_ignoreCase (u := u) s]
      exact second.head
    refine ⟨(s.advance u).advance u,second.advance fits,by rw [advance_ignoreCase,advance_ignoreCase],?_⟩
    rw [first,readEscaped,if_pos rfl,if_neg]
    · exact congrArg (fun c => (.ok (c,(s.advance u).advance u) : Except PatternError (Rune × RuneScanner))) own
    · rw [own]
      exact fun none => fits (fold_eq_NUL.mp none)

theorem Bound.head_ne (ordinary : Ordinary u) {b : Bound} (place : At s n (b.runes ++ rest)) (fits : b.Fits u s.ignoreCase) :
    s.peek u 0 ≠ ']' ∧ s.peek u 0 ≠ NUL := by
  cases b with
  | plain c =>
    rw [show s.peek u 0 = fold u s.ignoreCase c from place.head]
    exact ⟨fits.1,fun none => fits.2.2 (fold_eq_NUL.mp none)⟩
  | escaped c =>
    rw [show s.peek u 0 = '\\' from place.cons_head (by decide) ordinary]
    decide

/-- A turn reads an item as a token and stops before the runes behind it. -/
def TurnReads (u : Unicode) (pattern : List Rune) (negatedSeq : Bool) (s : RuneScanner) (token : SeqToken) (n : Nat)
    (rest : List Rune) : Prop :=
  ∃ s', At s' n rest ∧ s'.ignoreCase = s.ignoreCase ∧
    seqTurn u pattern negatedSeq (s.peek u 0) (s.advance u) = .ok (token,s'.read u)

theorem At.rangeAt (place : At s n rest) :
    (s.peek u 0 = '-' ∧ s.peek u 1 ≠ ']' ∧ s.peek u 1 ≠ NUL) ↔ RangeAt u s.ignoreCase rest := by
  rw [RangeAt,← place.peek 0,← place.peek 1]
  rfl

theorem At.classAt (place : At s n rest) {k : Nat} :
    ClassAt u s.ignoreCase rest k ↔ s.peek u 0 = ':' ∧ s.indexOf ']' = k + 1 ∧ s.peek u k = ':' := by
  rw [ClassAt,← place.peek 0,← place.peek k,place.indexOf]
  rfl

theorem turn_one (ordinary : Ordinary u) {b : Bound} (place : At s n (b.runes ++ rest)) (fits : b.Fits u s.ignoreCase)
    (single : ¬ RangeAt u s.ignoreCase rest) (placed : (Item.one b).Placed u s.ignoreCase n rest) (closed : ']' ∈ rest) :
    TurnReads u pattern negatedSeq s (.rune (fold u s.ignoreCase b.ch)) (n + b.runes.length) rest := by
  obtain ⟨s',behind,same,read⟩ := readEscaped_bound pattern ordinary place fits
  refine ⟨s',behind,same,?_⟩
  rw [← same] at single placed
  rw [seqTurn,read]
  simp only [bind,Except.bind]
  rw [if_neg (mt behind.rangeAt.mp single)]
  split
  next bracket =>
    have found : s'.indexOf ']' = rest.idxOf ']' := by rw [behind.indexOf,indexOf_eq,if_pos closed]
    rw [if_neg (by omega),if_pos]
    by_contra far
    rw [not_or,Int.not_le,not_not] at far
    obtain ⟨far,colon⟩ := far
    have pos := behind.pos
    obtain ⟨k,own⟩ := Int.eq_ofNat_of_zero_le (show 0 ≤ s'.indexOf ']' - 1 by omega)
    rw [own] at colon
    have near := placed (same ▸ bracket.1) k (behind.classAt.mpr ⟨bracket.2,by omega,colon⟩)
    omega
  next => rfl

theorem turn_range (ordinary : Ordinary u) {start stop : Bound} (place : At s n (start.runes ++ '-' :: (stop.runes ++ rest)))
    (fits : start.Fits u s.ignoreCase) (fits' : stop.Fits u s.ignoreCase) :
    TurnReads u pattern negatedSeq s (.runeRange (fold u s.ignoreCase start.ch) (fold u s.ignoreCase stop.ch) negatedSeq)
      (n + start.runes.length + 1 + stop.runes.length) rest := by
  obtain ⟨s',behind,same,read⟩ := readEscaped_bound pattern ordinary place fits
  have after : At (s'.advance u) (n + start.runes.length + 1) (stop.runes ++ rest) := behind.advance (by decide)
  have case' : (s'.advance u).ignoreCase = s.ignoreCase := (advance_ignoreCase s').trans same
  rw [← case'] at fits'
  obtain ⟨s'',end',same',read'⟩ := readEscaped_bound pattern ordinary after fits'
  refine ⟨s'',end',same'.trans case',?_⟩
  have dash : s'.peek u 0 = '-' := behind.cons_head (by decide) ordinary
  have next : s'.peek u 1 = (s'.advance u).peek u 0 := by
    have proper : s'.peek u 0 ≠ NUL := by
      rw [dash]
      decide
    exact (peek_advance s' 0 proper).symm
  obtain ⟨open',proper⟩ := Bound.head_ne ordinary after fits'
  rw [seqTurn,read]
  simp only [bind,Except.bind]
  rw [if_pos ⟨dash,next ▸ open',next ▸ proper⟩,RuneScanner.read,read',case']

theorem turn_class (ordinary : Ordinary u) {name : List Rune} {own : ClassName} (place : At s n ((Item.ofClass name own).runes ++ rest))
    (known : className (name.map u.ToLower) = some own) (placed : n < name.length) :
    TurnReads u pattern negatedSeq s (.ofClass own s.ignoreCase) (n + (Item.ofClass name own).runes.length) rest := by
  have shape : (Item.ofClass name own).runes ++ rest = (Bound.plain '[').runes ++ (':' :: (name ++ [':']) ++ ']' :: rest) := by
    simp [Item.runes,Bound.runes]
  rw [shape] at place
  have fold_bracket : fold u s.ignoreCase '[' = '[' := ordinary.fold_eq (by decide) _
  have fits : (Bound.plain '[').Fits u s.ignoreCase := by
    rw [Bound.Fits,fold_bracket]
    decide
  obtain ⟨s',behind,same,read⟩ := readEscaped_bound pattern ordinary place fits
  have bare : ']' ∉ ':' :: (name ++ [':']) := by
    have none : ']' ∉ name := fun member => className_plain ordinary known member (by decide)
    simp [none]
  have colon : s'.peek u 0 = ':' := behind.cons_head (by decide) ordinary
  have found : s'.indexOf ']' = name.length + 2 := by
    rw [behind.indexOf,indexOf_append bare]
    simp
    omega
  have last : s'.peek u (name.length + 1) = ':' := by
    have here : s'.peek u ((name.length + 1 : Nat) : Int) = _ := behind.peek (name.length + 1)
    rw [show ((name.length + 1 : Nat) : Int) = name.length + 1 from rfl] at here
    rw [here,show (':' :: (name ++ [':']) ++ ']' :: rest).getD (name.length + 1) NUL = ':' by simp]
    exact ordinary.fold_eq (by decide) _
  have pos := behind.pos
  have bound : (Bound.plain '[').runes.length = 1 := rfl
  have slice : (s'.text.drop (s'.pos + 1).toNat).take (s'.indexOf ']' - 2).toNat = name := by
    have start : (s'.pos + 1).toNat = n + (Bound.plain '[').runes.length + 1 := by omega
    have width : (s'.indexOf ']' - 2).toNat = name.length := by omega
    rw [start,width,← List.drop_drop,behind.rest]
    simp
  have jump := behind.jump (k := name.length + 3) (by simp)
  have place' : s'.pos + s'.indexOf ']' + 1 = s'.pos + ((name.length + 3 : Nat) : Int) := by omega
  rw [← place'] at jump
  refine ⟨{s' with pos := s'.pos + s'.indexOf ']' + 1},?_,same,?_⟩
  · have size : n + (Item.ofClass name own).runes.length = n + (Bound.plain '[').runes.length + (name.length + 3) := by
      simp [Item.runes,Bound.runes]
      omega
    have dropped : (':' :: (name ++ [':']) ++ ']' :: rest).drop (name.length + 3) = rest := by simp
    rw [size,← dropped]
    exact jump
  · have single : ¬ (s'.peek u 0 = '-' ∧ s'.peek u 1 ≠ ']' ∧ s'.peek u 1 ≠ NUL) := by
      rw [colon]
      exact fun dash => absurd dash.1 (by decide)
    have near : ¬ (s'.indexOf ']' - 1 ≤ s'.pos ∨ s'.peek u (s'.indexOf ']' - 1) ≠ ':') := by
      rw [show s'.indexOf ']' - 1 = name.length + 1 by omega,last]
      rintro (far | other)
      · omega
      · exact other rfl
    rw [seqTurn,read]
    simp only [bind,Except.bind]
    rw [if_neg single,show (Bound.plain '[').ch = '[' from rfl,if_pos ⟨fold_bracket,colon⟩,if_neg (by omega),if_neg near,slice,known]
    dsimp only
    rw [same]

/-- What an item needs to be read as its token: with the items behind it and the runes before it. -/
def Item.Taken (u : Unicode) (ignoreCase : Bool) (before : Nat) (rest : List Rune) : Item → Prop
  | one bound => bound.Fits u ignoreCase ∧ ¬ RangeAt u ignoreCase rest ∧ (one bound).Placed u ignoreCase before rest
  | range start stop => start.Fits u ignoreCase ∧ stop.Fits u ignoreCase
  | ofClass name own => className (name.map u.ToLower) = some own ∧ before < name.length

theorem Item.Taken.of_fits {item : Item} (fits : item.Fits u ignoreCase rest) (placed : item.Placed u ignoreCase n rest) :
    item.Taken u ignoreCase n rest := by
  cases item with
  | one bound => exact ⟨fits.1,fits.2.1,placed⟩
  | range start stop => exact fits
  | ofClass name own => exact ⟨fits,placed⟩

variable (pattern negatedSeq) in
theorem turn_item (ordinary : Ordinary u) {item : Item} (place : At s n (item.runes ++ rest))
    (taken : item.Taken u s.ignoreCase n rest) (closed : ']' ∈ rest) :
    TurnReads u pattern negatedSeq s (item.token u s.ignoreCase negatedSeq) (n + item.runes.length) rest := by
  cases item with
  | one bound => exact turn_one ordinary place taken.1 taken.2.1 taken.2.2 closed
  | range start stop =>
    have split : (Item.range start stop).runes ++ rest = start.runes ++ '-' :: (stop.runes ++ rest) := by simp [Item.runes]
    have size : n + (Item.range start stop).runes.length = n + start.runes.length + 1 + stop.runes.length := by
      simp [Item.runes]
      omega
    rw [size]
    exact turn_range ordinary (split ▸ place) taken.1 taken.2
  | ofClass name own => exact turn_class ordinary place taken.1 taken.2

theorem Item.head_ne (ordinary : Ordinary u) {item : Item} (place : At s n (item.runes ++ rest))
    (taken : item.Taken u s.ignoreCase n rest) : ¬ (s.peek u 0 = ']' ∨ s.peek u 0 = NUL) := by
  have of_bound {b : Bound} {rest : List Rune} (place : At s n (b.runes ++ rest)) (fits : b.Fits u s.ignoreCase) :
      ¬ (s.peek u 0 = ']' ∨ s.peek u 0 = NUL) := not_or.mpr (Bound.head_ne ordinary place fits)
  cases item with
  | one bound => exact of_bound place taken.1
  | range start stop =>
    have split : (Item.range start stop).runes ++ rest = start.runes ++ '-' :: (stop.runes ++ rest) := by simp [Item.runes]
    exact of_bound (split ▸ place) taken.1
  | ofClass name own =>
    rw [show s.peek u 0 = '[' from place.cons_head (by decide) ordinary]
    decide

def Taken (u : Unicode) (ignoreCase : Bool) (rest : List Rune) : Nat → List Item → Prop
  | _,[] => True
  | before,item :: items => item.Taken u ignoreCase before (written items ++ rest) ∧
      Taken u ignoreCase rest (before + item.runes.length) items

theorem written_cons (item : Item) (items : List Item) : written (item :: items) = item.runes ++ written items := rfl

theorem Item.runes_ne_nil (item : Item) : 0 < item.runes.length := by
  have of_bound (b : Bound) : 0 < b.runes.length := by
    cases b with
    | plain => exact Nat.zero_lt_succ _
    | escaped => exact Nat.zero_lt_succ _
  cases item with
  | one bound => exact of_bound bound
  | range start stop =>
    rw [Item.runes,List.length_append,List.length_cons]
    omega
  | ofClass => exact Nat.zero_lt_succ _

theorem length_le_written (items : List Item) : items.length ≤ (written items).length := by
  induction items with
  | nil => exact Nat.le_refl _
  | cons item items ih =>
    have some := item.runes_ne_nil
    rw [written_cons,List.length_append,List.length_cons]
    omega

variable (pattern negatedSeq) in
/-- The turns over items add their tokens. -/
theorem items_read (ordinary : Ordinary u) {items : List Item} (place : At s n (written items ++ rest))
    (taken : Taken u s.ignoreCase rest n items) (closed : ']' ∈ rest) :
    ∃ s', At s' (n + (written items).length) rest ∧ s'.ignoreCase = s.ignoreCase ∧ ∀ turns seq,
      seqItems u pattern negatedSeq (items.length + turns) (s.peek u 0) (s.advance u) seq =
        seqItems u pattern negatedSeq turns (s'.peek u 0) (s'.advance u) (seq ++ items.map (·.token u s.ignoreCase negatedSeq)) := by
  induction items generalizing s n with
  | nil => exact ⟨s,place,rfl,fun turns seq => by simp⟩
  | cons item items ih =>
    obtain ⟨own,others⟩ := taken
    rw [written_cons,List.append_assoc] at place
    obtain ⟨s',behind,same,turn⟩ := turn_item pattern negatedSeq ordinary place own (by simp [closed])
    obtain ⟨s'',end',same',run⟩ := ih behind (same ▸ others)
    refine ⟨s'',?_,same'.trans same,fun turns seq => ?_⟩
    · rw [written_cons,List.length_append,← Nat.add_assoc]
      exact end'
    · rw [List.length_cons,Nat.add_right_comm,seqItems_turn (Item.head_ne ordinary place own),turn]
      refine (run turns _).trans ?_
      rw [same,List.append_assoc]
      rfl

end Turns

section Misplaced
variable {ignoreCase : Bool} {s : RuneScanner} {n : Nat} {rest pattern : List Rune} {negatedSeq : Bool}

/-- The runes that stand for others in a sequence, or with others. -/
def delimiters : List Rune := ['[',']','\\','-',NUL]

/-- Runes one by one in a sequence. -/
def ones (l : List Rune) : List Item := l.map fun c => .one (.plain c)

theorem written_ones (l : List Rune) : written (ones l) = l := by
  induction l with
  | nil => rfl
  | cons c l ih =>
    rw [show ones (c :: l) = .one (.plain c) :: ones l from rfl,written_cons,ih]
    rfl

theorem ones_taken {l : List Rune} (plain : ∀ c ∈ l, fold u ignoreCase c ∉ delimiters) (last : fold u ignoreCase (rest.getD 0 NUL) ≠ '-') :
    Taken u ignoreCase rest n (ones l) := by
  induction l generalizing n with
  | nil => trivial
  | cons c l ih =>
    have own := plain c List.mem_cons_self
    have others : ∀ c ∈ l, fold u ignoreCase c ∉ delimiters := fun c member => plain c (List.mem_cons_of_mem _ member)
    have fits : (Bound.plain c).Fits u ignoreCase := by
      refine ⟨fun same => own (same ▸ by decide),fun same => own (same ▸ by decide),fun same => own ?_⟩
      rw [fold_eq_NUL.mpr same]
      decide
    refine ⟨⟨fits,fun range => ?_,fun same => absurd (same ▸ by decide) own⟩,ih others⟩
    rw [show l.map (fun c => Item.one (.plain c)) = ones l from rfl,written_ones] at range
    cases l with
    | nil => exact last range.1
    | cons d l => exact others d List.mem_cons_self ((show fold u ignoreCase d = '-' from range.1) ▸ by decide)

/-- The items end too early or not at all. -/
def Spoilt (u : Unicode) (result : Except PatternError (Rune × RuneScanner × List SeqToken)) : Prop :=
  ∀ p seq, result = .ok (']',p,seq) → p.peek u 0 ≠ NUL

/-- A class that is too far away for its name is read rune by rune, and its bracket closes the sequence. -/
theorem class_spoilt (ordinary : Ordinary u) {name : List Rune} {own : ClassName} {c : Rune} {seq : List SeqToken} {turns : Nat}
    (place : At s n ((Item.ofClass name own).runes ++ c :: rest)) (known : className (name.map u.ToLower) = some own)
    (far : name.length ≤ n) (proper : c ≠ NUL) (enough : (Item.ofClass name own).runes.length ≤ turns) :
    Spoilt u (seqItems u pattern negatedSeq turns (s.peek u 0) (s.advance u) seq) := by
  have fold_bracket : fold u s.ignoreCase '[' = '[' := ordinary.fold_eq (by decide) _
  have fold_colon : fold u s.ignoreCase ':' = ':' := ordinary.fold_eq (by decide) _
  have split : (Item.ofClass name own).runes ++ c :: rest = written (ones ('[' :: ':' :: (name ++ [':']))) ++ ']' :: c :: rest := by
    rw [written_ones]
    simp [Item.runes]
  have size : (Item.ofClass name own).runes.length = (ones ('[' :: ':' :: (name ++ [':']))).length + 1 := by simp [Item.runes,ones]
  have plain : ∀ d ∈ ':' :: (name ++ [':']), fold u s.ignoreCase d ∉ delimiters := by
    have colon : fold u s.ignoreCase ':' ∉ delimiters := by
      rw [fold_colon]
      decide
    intro d member
    rcases List.mem_cons.mp member with rfl | member
    · exact colon
    · rcases List.mem_append.mp member with member | last
      · have all : (delimiters.all fun d => decide (d ∈ special)) = true := by decide
        exact fun own => className_fold ordinary known member s.ignoreCase (of_decide_eq_true (List.all_eq_true.mp all _ own))
      · exact List.mem_singleton.mp last ▸ colon
  have taken : Taken u s.ignoreCase (']' :: c :: rest) n (ones ('[' :: ':' :: (name ++ [':']))) := by
    refine ⟨⟨?_,?_,?_⟩,ones_taken plain ?_⟩
    · rw [Bound.Fits,fold_bracket]
      decide
    · rintro ⟨dash,-⟩
      exact absurd (fold_colon.symm.trans dash) (by decide)
    · intro _ k found
      have bare : ']' ∉ ':' :: (name ++ [':']) := by
        have none : ']' ∉ name := fun member => className_plain ordinary known member (by decide)
        simp [none]
      have index := found.2.1
      rw [show (':' :: (name ++ [':'])).map (fun c => Item.one (.plain c)) = ones (':' :: (name ++ [':'])) from rfl,written_ones,
        indexOf_append bare] at index
      simp [Bound.runes] at index ⊢
      omega
    · rw [show (']' :: c :: rest).getD 0 NUL = ']' from rfl,ordinary.fold_eq (by decide)]
      decide
  rw [split] at place
  obtain ⟨s',behind,same,run⟩ := items_read pattern negatedSeq ordinary place taken List.mem_cons_self
  obtain ⟨more,rfl⟩ := Nat.exists_eq_add_of_le enough
  rw [size,Nat.add_assoc,run,seqItems_ended (.inl (behind.cons_head (by decide) ordinary)),behind.cons_head (by decide) ordinary]
  intro p seq' ended
  cases ended
  rw [(behind.advance (by decide)).head]
  exact fun none => proper (fold_eq_NUL.mp none)

/-- Runes in which every closing bracket is escaped or belongs to a class. -/
inductive Shut : List Rune → Prop
  | nil : Shut []
  | plain {c : Rune} {l : List Rune} (other : c ≠ ']') (shut : Shut l) : Shut (c :: l)
  | escaped {c : Rune} {l : List Rune} (shut : Shut l) : Shut ('\\' :: c :: l)
  | ofClass {front l : List Rune} (shut : Shut l) : Shut ('[' :: (front ++ l))

/-- The first closing bracket is the last rune, stands behind an opening bracket or is escaped. -/
theorem Shut.first {l : List Rune} (shut : Shut l) : (l ++ [']']).idxOf ']' = l.length ∨ '[' ∈ l.take ((l ++ [']']).idxOf ']') ∨
    ∃ i, (l ++ [']']).idxOf ']' = i + 1 ∧ l[i]? = some '\\' := by
  have later {c : Rune} (other : c ≠ ']') (l : List Rune) : (c :: l).idxOf ']' = l.idxOf ']' + 1 := List.idxOf_cons_ne _ other
  induction shut with
  | nil => exact .inl rfl
  | @plain c l other shut ih =>
    rw [List.cons_append,later other]
    rcases ih with last | inside | ⟨i,place,escape⟩
    · exact .inl (by rw [last,List.length_cons])
    · exact .inr (.inl (List.mem_cons_of_mem _ inside))
    · exact .inr (.inr ⟨i + 1,by rw [place],escape⟩)
  | @escaped c l shut ih =>
    rw [List.cons_append,List.cons_append,later (by decide)]
    by_cases same : c = ']'
    · rw [same,List.idxOf_cons_self]
      exact .inr (.inr ⟨0,rfl,rfl⟩)
    · rw [later same]
      rcases ih with last | inside | ⟨i,place,escape⟩
      · exact .inl (by rw [last,List.length_cons,List.length_cons])
      · exact .inr (.inl (List.mem_cons_of_mem _ (List.mem_cons_of_mem _ inside)))
      · exact .inr (.inr ⟨i + 2,by rw [place],escape⟩)
  | ofClass =>
    rw [List.cons_append,later (by decide)]
    exact .inr (.inl List.mem_cons_self)

theorem Shut.append {front back : List Rune} (shut : Shut front) (shut' : Shut back) : Shut (front ++ back) := by
  induction shut with
  | nil => exact shut'
  | plain other _ ih => exact .plain other ih
  | escaped _ ih => exact .escaped ih
  | @ofClass front l _ ih =>
    rw [List.cons_append,List.append_assoc]
    exact .ofClass ih

theorem Bound.shut (ordinary : Ordinary u) {b : Bound} (fits : b.Fits u ignoreCase) : Shut b.runes := by
  cases b with
  | plain c =>
    refine .plain ?_ .nil
    rintro rfl
    exact fits.1 (ordinary.fold_eq (by decide) _)
  | escaped c => exact .escaped .nil

theorem Fit.shut (ordinary : Ordinary u) {items : List Item} (fit : Fit u ignoreCase rest items) : Shut (written items) := by
  induction items with
  | nil => exact .nil
  | cons item items ih =>
    obtain ⟨own,others⟩ := fit
    refine Shut.append ?_ (ih others)
    cases item with
    | one bound => exact Bound.shut ordinary own.1
    | range start stop => exact (Bound.shut ordinary own.1).append (.plain (by decide) (Bound.shut ordinary own.2))
    | ofClass name own =>
      have all : Shut ('[' :: (':' :: (name ++ [':',']']) ++ [])) := .ofClass .nil
      rw [List.append_nil] at all
      exact all

/-- An escaped bracket that is taken for the opening of a class takes the closing bracket of the sequence with it. -/
theorem escaped_spoilt (ordinary : Ordinary u) {b : Bound} {items : List Item} {k : Nat} {seq : List SeqToken} {turns : Nat}
    (place : At s n (b.runes ++ (written items ++ [']']))) (fits : b.Fits u s.ignoreCase) (bracket : fold u s.ignoreCase b.ch = '[')
    (single : ¬ RangeAt u s.ignoreCase (written items ++ [']'])) (fit : Fit u s.ignoreCase [']'] items)
    (opened : ClassAt u s.ignoreCase (written items ++ [']']) k) (near : n + b.runes.length < k) :
    Spoilt u (seqItems u pattern negatedSeq (turns + 1) (s.peek u 0) (s.advance u) seq) := by
  obtain ⟨s',behind,same,read⟩ := readEscaped_bound pattern ordinary place fits
  obtain ⟨colon,index,last⟩ := opened
  have found : s'.indexOf ']' = k + 1 := by rw [behind.indexOf,index]
  have pos := behind.pos
  have colon' : s'.peek u 0 = ':' := by
    rw [show s'.peek u 0 = _ from behind.peek 0,same]
    exact colon
  have last' : s'.peek u (s'.indexOf ']' - 1) = ':' := by
    rw [found,show (k : Int) + 1 - 1 = k by omega,behind.peek,same]
    exact last
  have going : ¬ (s.peek u 0 = ']' ∨ s.peek u 0 = NUL) := not_or.mpr (Bound.head_ne ordinary place fits)
  have near' : ¬ (s'.indexOf ']' - 1 ≤ s'.pos ∨ s'.peek u (s'.indexOf ']' - 1) ≠ ':') := by
    rintro (far | other)
    · omega
    · exact other last'
  have slice : (s'.text.drop (s'.pos + 1).toNat).take (s'.indexOf ']' - 2).toNat = ((written items ++ [']']).drop 1).take (k - 1) := by
    have start : (s'.pos + 1).toNat = n + b.runes.length + 1 := by omega
    have width : (s'.indexOf ']' - 2).toNat = k - 1 := by omega
    rw [start,width,← List.drop_drop,behind.rest]
  rw [seqItems_turn going,seqTurn,read]
  simp only [bind,Except.bind]
  rw [if_neg (mt behind.rangeAt.mp (same ▸ single)),if_pos ⟨bracket,colon'⟩,if_neg (by omega),if_neg near',slice]
  cases known : className ((((written items ++ [']']).drop 1).take (k - 1)).map u.ToLower) with
  | none =>
    intro p seq' ended
    contradiction
  | some own =>
    have whole : k + 1 = (written items).length := by
      have index' : (written items ++ [']']).idxOf ']' = k + 1 := by
        rw [indexOf_eq,if_pos (by simp)] at index
        omega
      have first := (fit.shut ordinary).first
      rw [index'] at first
      -- neither of the colons is a bracket or a backslash, so that an opening bracket is in the name
      have other {i : Nat} {c : Rune} (colon : fold u s.ignoreCase ((written items ++ [']']).getD i NUL) = ':')
          (meaning : c ∈ special) (ne : c ≠ ':') : (written items)[i]? ≠ some c := by
        intro own
        have inside := (List.getElem?_eq_some_iff.mp own).1
        rw [List.getD_eq_getElem?_getD,List.getElem?_append_left inside,own,Option.getD_some,ordinary.fold_eq meaning] at colon
        exact ne colon
      rcases first with last'' | inside | ⟨i,place',escape⟩
      · exact last''
      · obtain ⟨i,few,own⟩ := List.mem_iff_getElem.mp inside
        rw [List.length_take] at few
        rw [List.getElem_take] at own
        have own' : (written items)[i]? = some '[' := List.getElem?_eq_some_iff.mpr ⟨by omega,own⟩
        have first' : i ≠ 0 := fun zero => other colon (by decide) (by decide) (zero ▸ own')
        have second' : i ≠ k := fun equal => other last (by decide) (by decide) (equal ▸ own')
        have member : '[' ∈ ((written items ++ [']']).drop 1).take (k - 1) := by
          refine List.mem_iff_getElem?.mpr ⟨i - 1,?_⟩
          rw [List.getElem?_take_of_lt (by omega),List.getElem?_drop,show 1 + (i - 1) = i by omega,
            List.getElem?_append_left (by omega),own']
        exact absurd (by decide) (className_plain ordinary known member)
      · exact absurd (by rw [Nat.succ.inj place',escape]) (other last (show '\\' ∈ special by decide) (by decide))
    have size : (written items ++ [']']).length = k + 2 := by
      rw [List.length_append,← whole]
      rfl
    have jump := behind.jump (k := k + 2) (by rw [size])
    rw [List.drop_of_length_le (by rw [size])] at jump
    have place' : s'.pos + s'.indexOf ']' + 1 = s'.pos + ((k + 2 : Nat) : Int) := by omega
    dsimp only
    rw [place',RuneScanner.read,jump.ended,seqItems_ended (.inr rfl)]
    intro p seq' ended
    cases ended

theorem Fit.head {items : List Item} (fit : Fit u ignoreCase rest items) : ∃ c tail, written items ++ [']'] = c :: tail ∧ c ≠ NUL := by
  have of_bound {b : Bound} (fits : b.Fits u ignoreCase) : ∃ c tail, b.runes = c :: tail ∧ c ≠ NUL := by
    cases b with
    | plain c => exact ⟨c,[],rfl,fits.2.2⟩
    | escaped c => exact ⟨'\\',[c],rfl,by decide⟩
  cases items with
  | nil => exact ⟨']',[],rfl,by decide⟩
  | cons item items =>
    rw [written_cons]
    cases item with
    | one bound =>
      obtain ⟨c,tail,own,proper⟩ := of_bound fit.1.1
      exact ⟨c,tail ++ written items ++ [']'],by rw [Item.runes,own]; rfl,proper⟩
    | range start stop =>
      obtain ⟨c,tail,own,proper⟩ := of_bound fit.1.1
      exact ⟨c,tail ++ '-' :: stop.runes ++ written items ++ [']'],by rw [Item.runes,own]; rfl,proper⟩
    | ofClass name own => exact ⟨'[',_,rfl,by decide⟩

theorem items_spoilt (ordinary : Ordinary u) {items : List Item} {seq : List SeqToken} {turns : Nat}
    (place : At s n (written items ++ [']'])) (fit : Fit u s.ignoreCase [']'] items) (lost : ¬ Placed u s.ignoreCase [']'] n items)
    (enough : (written items).length < turns) :
    Spoilt u (seqItems u pattern negatedSeq turns (s.peek u 0) (s.advance u) seq) := by
  induction items generalizing s n turns seq with
  | nil => exact absurd trivial lost
  | cons item items ih =>
    obtain ⟨own,others⟩ := fit
    rw [written_cons,List.append_assoc] at place
    rw [written_cons,List.length_append] at enough
    have some := item.runes_ne_nil
    obtain ⟨turns,rfl⟩ := Nat.exists_eq_add_one_of_ne_zero (show turns ≠ 0 by omega)
    by_cases placed : item.Placed u s.ignoreCase n (written items ++ [']'])
    · have taken := Item.Taken.of_fits own placed
      obtain ⟨s',behind,same,turn⟩ := turn_item pattern negatedSeq ordinary place taken (by simp)
      rw [seqItems_turn (Item.head_ne ordinary place taken),turn]
      refine ih behind (same ▸ others) (fun rest => lost ⟨placed,same ▸ rest⟩) (by omega)
    · cases item with
      | one bound =>
        rw [Item.Placed,Classical.not_imp,not_forall] at placed
        obtain ⟨bracket,k,far⟩ := placed
        rw [Classical.not_imp,Nat.not_le] at far
        exact escaped_spoilt ordinary place own.1 bracket own.2.1 others far.1 far.2
      | range start stop => exact absurd trivial placed
      | ofClass name class' =>
        obtain ⟨c,tail,next,proper⟩ := others.head
        rw [next] at place
        exact class_spoilt ordinary place own (Nat.not_lt.mp placed) proper (by omega)

end Misplaced

section Sequences
variable {p : RuneScanner} {n : Nat} {pattern : List Rune} {s : Sequence}

/-- The items of a sequence start behind its opening. -/
theorem afterOpening_sequence (ordinary : Ordinary u) (place : At p n s.runes) (formed : s.Formed u p.ignoreCase) :
    ∃ t, At t (n + s.opening.length) (written s.items ++ [']']) ∧ t.ignoreCase = p.ignoreCase ∧
      afterOpening u (p.advance u) = t.read u ∧ decide (((p.advance u).read u).1 = '!') = s.negated := by
  rw [Sequence.runes,Sequence.opening] at place
  cases negated : s.negated with
  | false =>
    rw [negated] at place
    have first : At (p.advance u) (n + 1) (written s.items ++ [']']) := place.advance (by decide)
    have bare : ¬ ((p.advance u).read u).1 = '!' := by
      rw [show ((p.advance u).read u).1 = _ from first.peek 0,advance_ignoreCase]
      exact formed.2 negated
    refine ⟨p.advance u,?_,advance_ignoreCase p,?_,decide_eq_false bare⟩
    · rw [Sequence.opening,negated]
      exact first
    · rw [afterOpening,if_neg bare]
  | true =>
    rw [negated] at place
    have first : At (p.advance u) (n + 1) ('!' :: (written s.items ++ [']'])) := place.advance (by decide)
    have bang : ((p.advance u).read u).1 = '!' := first.cons_head (by decide) ordinary
    refine ⟨(p.advance u).advance u,?_,(advance_ignoreCase _).trans (advance_ignoreCase p),?_,decide_eq_true bang⟩
    · rw [Sequence.opening,negated]
      exact first.advance (by decide)
    · rw [afterOpening,if_pos bang]

theorem nextToken_bracket (bracket : p.peek u 0 = '[') : nextToken u pattern p = (sequence u pattern (p.advance u)).map some := by
  rw [nextToken]
  dsimp only [RuneScanner.read]
  rw [bracket]
  rfl

theorem Taken.of_fit {ignoreCase : Bool} {rest : List Rune} {items : List Item} (fit : Fit u ignoreCase rest items)
    (placed : Wildcard.Placed u ignoreCase rest n items) : Taken u ignoreCase rest n items := by
  induction items generalizing n with
  | nil => trivial
  | cons item items ih => exact ⟨.of_fits fit.1 placed.1,ih fit.2 placed.2⟩

theorem head_bracket (ordinary : Ordinary u) (place : At p n s.runes) : p.peek u 0 = '[' := by
  rw [Sequence.runes,Sequence.opening] at place
  split at place
  next => exact place.cons_head (by decide) ordinary
  next => exact place.cons_head (by decide) ordinary

theorem length_runes : s.runes.length = s.opening.length + ((written s.items).length + 1) := by
  rw [Sequence.runes,List.length_append,List.length_append]
  rfl

theorem opening_ne_nil : 0 < s.opening.length := by
  rw [Sequence.opening]
  split
  next => exact Nat.zero_lt_succ _
  next => exact Nat.zero_lt_succ _

variable (pattern) in
theorem nextToken_placed (ordinary : Ordinary u) (place : At p n s.runes) (formed : s.Formed u p.ignoreCase)
    (placed : s.Placed u p.ignoreCase n) :
    ∃ p', At p' (n + s.runes.length) [] ∧ nextToken u pattern p = .ok (some (s.token u p.ignoreCase,p')) := by
  obtain ⟨t,inner,same,opened,negated⟩ := afterOpening_sequence ordinary place formed
  have taken := Taken.of_fit formed.1 placed
  rw [← same] at taken
  obtain ⟨t',last,same',run⟩ := items_read pattern s.negated ordinary inner taken (by simp)
  refine ⟨t'.advance u,?_,?_⟩
  · have size : n + s.runes.length = n + s.opening.length + (written s.items).length + 1 := by
      rw [length_runes]
      omega
    rw [size]
    exact last.advance (by decide)
  · have close : t'.peek u 0 = ']' := last.cons_head (by decide) ordinary
    have few : s.items.length ≤ (p.advance u).text.length := by
      have size := place.length
      have enough := length_le_written s.items
      rw [length_runes] at size
      rw [advance_text]
      omega
    obtain ⟨more,turns⟩ := Nat.exists_eq_add_of_le few
    rw [nextToken_bracket (head_bracket ordinary place),sequence_eq,opened,negated,turns,RuneScanner.read,run,
      seqItems_ended (.inl close),close]
    rw [Sequence.token,same]
    rfl

/-- A sequence with an item in the wrong place leaves runes behind. -/
theorem nextToken_misplaced (ordinary : Ordinary u) (place : At p n s.runes) (formed : s.Formed u p.ignoreCase)
    (lost : ¬ s.Placed u p.ignoreCase n) {read : Option (Token × RuneScanner)} (given : nextToken u pattern p = .ok read) :
    ∃ token p', read = some (token,p') ∧ p'.peek u 0 ≠ NUL := by
  obtain ⟨t,inner,same,opened,negated⟩ := afterOpening_sequence ordinary place formed
  have size := place.length
  have opens := opening_ne_nil (s := s)
  rw [length_runes] at size
  have spoilt : Spoilt u (seqItems u pattern s.negated (p.advance u).text.length (t.peek u 0) (t.advance u) []) :=
    items_spoilt ordinary inner (same ▸ formed.1) (same ▸ lost) (by rw [advance_text]; omega)
  rw [nextToken_bracket (head_bracket ordinary place),sequence_eq,opened,negated] at given
  dsimp only [RuneScanner.read] at given
  cases items : seqItems u pattern s.negated (p.advance u).text.length (t.peek u 0) (t.advance u) [] with
  | error e =>
    rw [items] at given
    contradiction
  | ok own =>
    obtain ⟨ch,p',seq⟩ := own
    rw [items] at given spoilt
    simp only [Except.bind] at given
    split at given
    next => contradiction
    next closed =>
      cases given
      have close : ch = ']' := not_not.mp closed
      exact ⟨_,p',rfl,spoilt p' seq (close ▸ rfl)⟩

end Sequences

end Vbe.Wildcard
