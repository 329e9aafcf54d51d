import Vbe.Index.Id

/-! Content identifiers that are read from texts. -/
namespace Vbe.Index

section Hexadecimal

/-- The value of a hexadecimal digit of either case. -/
def hexValue (c : UInt8) : Option Nat :=
  if 48 ≤ c ∧ c ≤ 57 then some (c.toNat - 48)
  else if 97 ≤ c ∧ c ≤ 102 then some (c.toNat - 87)
  else if 65 ≤ c ∧ c ≤ 70 then some (c.toNat - 55)
  else none

inductive HexError
  | invalidByte (c : UInt8)
  | length
deriving DecidableEq

def hexDecode : Bytes → Except HexError Bytes
  | [] => .ok []
  | [c] => if (hexValue c).isNone then .error (.invalidByte c) else .error .length
  | high :: low :: s =>
    match hexValue high, hexValue low with
    | none, _ => .error (.invalidByte high)
    | some _, none => .error (.invalidByte low)
    | some a, some b => do return UInt8.ofNat (16 * a + b) :: (← hexDecode s)

def lowerHex (c : UInt8) : UInt8 := if 65 ≤ c ∧ c ≤ 70 then c + 32 else c

theorem hexValue_hexDigit (n : Nat) (bound : n < 16) : hexValue (hexDigit n) = some n := by
  revert n
  decide

theorem hexDigit_hexValue {c : UInt8} {n : Nat} (value : hexValue c = some n) : n < 16 ∧ hexDigit n = lowerHex c := by
  have all : ∀ m < 256, (hexValue (UInt8.ofNat m)).all fun n => n < 16 ∧ hexDigit n = lowerHex (UInt8.ofNat m) := by decide +kernel
  have one := all c.toNat c.toNat_lt
  rw [UInt8.ofNat_toNat,value] at one
  exact of_decide_eq_true one

theorem hexDecode_hexEncode (data : Bytes) : hexDecode (hexEncode data) = .ok data := by
  induction data with
  | nil => rfl
  | cons b data ih =>
    have bound := b.toNat_lt
    rw [hexEncode,List.flatMap_cons,← hexEncode]
    simp only [List.cons_append,List.nil_append,hexDecode,hexValue_hexDigit _ (by omega : b.toNat / 16 < 16),
      hexValue_hexDigit _ (by omega : b.toNat % 16 < 16),ih]
    have whole : 16 * (b.toNat / 16) + b.toNat % 16 = b.toNat := by omega
    rw [whole,UInt8.ofNat_toNat]
    rfl

/-- What is decoded is encoded in lower case. -/
theorem hexEncode_hexDecode {s data : Bytes} (decoded : hexDecode s = .ok data) :
    hexEncode data = s.map lowerHex ∧ s.length = 2 * data.length := by
  induction s using hexDecode.induct generalizing data with
  | case1 =>
    cases decoded
    exact ⟨rfl,rfl⟩
  | case2 c invalid => simp [hexDecode,invalid] at decoded
  | case3 c valid => simp [hexDecode,valid] at decoded
  | case4 high low s none => simp [hexDecode,none] at decoded
  | case5 high low s a value none => simp [hexDecode,value,none] at decoded
  | case6 high low s a b value' value ih =>
    simp only [hexDecode,value,value'] at decoded
    cases rest : hexDecode s with
    | error err =>
      rw [rest] at decoded
      contradiction
    | ok data' =>
      rw [rest] at decoded
      cases decoded
      obtain ⟨text,length⟩ := ih rest
      obtain ⟨bound,digit⟩ := hexDigit_hexValue value
      obtain ⟨bound',digit'⟩ := hexDigit_hexValue value'
      have number : (UInt8.ofNat (16 * a + b)).toNat = 16 * a + b := by
        rw [UInt8.toNat_ofNat']
        omega
      have first : (16 * a + b) / 16 = a := by omega
      have second : (16 * a + b) % 16 = b := by omega
      rw [hexEncode,List.flatMap_cons,← hexEncode,text,number,first,second,digit,digit']
      refine ⟨rfl,?_⟩
      simp only [List.length_cons,length]
      omega

end Hexadecimal

section Parsing

inductive ParseError
  | contentPrefix
  | hashTooLong
  | contentHash (err : HexError)
  | tooShort (s : Bytes)
deriving DecidableEq

/-- The identifier with a prefix and the hash of some digits, where the whole text is `s`. -/
def parseHash (s : Bytes) (letter : UInt8) (digits : Bytes) : Except ParseError ID :=
  if 2 * maxHashSize < digits.length then .error .hashTooLong
  else
    match hexDecode digits with
    | .error err => .error (.contentHash err)
    | .ok data => if data.length = 0 then .error (.tooShort s) else .ok ⟨letter,data⟩

def ParseID (s : Bytes) : Except ParseError ID :=
  match s with
  | [] => .ok ⟨0,[]⟩
  | letter :: digits =>
    if s.length % 2 = 1 then
      if letter < 103 ∨ 122 < letter then .error .contentPrefix else parseHash s letter digits
    else parseHash s 0 s

/-- `Append` writes a prefix that is not zero. -/
def ID.Append (i : ID) (out : Bytes) : Bytes :=
  let out := if i.idPrefix ≠ 0 then out ++ [i.idPrefix] else out
  out ++ hexEncode i.data

theorem length_hexEncode (data : Bytes) : (hexEncode data).length = 2 * data.length :=
  (hexEncode_hexDecode (hexDecode_hexEncode data)).2

theorem parseHash_hexEncode {data : Bytes} (s : Bytes) (letter : UInt8) (some : 1 ≤ data.length) (short : data.length ≤ maxHashSize) :
    parseHash s letter (hexEncode data) = .ok ⟨letter,data⟩ := by
  have length := length_hexEncode data
  rw [parseHash,if_neg (by omega),hexDecode_hexEncode]
  exact if_neg (by omega)

theorem parseHash_ok {s digits : Bytes} {letter : UInt8} {i : ID} (parsed : parseHash s letter digits = .ok i) :
    i.idPrefix = letter ∧ hexEncode i.data = digits.map lowerHex ∧ 1 ≤ i.data.length ∧ i.data.length ≤ maxHashSize := by
  rw [parseHash] at parsed
  split at parsed
  next => contradiction
  next short =>
    cases decoded : hexDecode digits with
    | error err =>
      rw [decoded] at parsed
      contradiction
    | ok data =>
      simp only [decoded] at parsed
      obtain ⟨text,length⟩ := hexEncode_hexDecode decoded
      split at parsed
      next => contradiction
      next some =>
        cases parsed
        refine ⟨rfl,text,?_,?_⟩ <;> simp only <;> omega

theorem ParseID_even {s : Bytes} (some : s ≠ []) (even : s.length % 2 = 0) : ParseID s = parseHash s 0 s := by
  cases s with
  | nil => contradiction
  | cons letter digits => rw [ParseID,if_neg (by omega)]

/-- An identifier that is read back from its text: a valid one, or the empty one. -/
theorem ParseID_String {i : ID} (valid : i.Valid ∨ i = EmptyID) : ParseID i.String = .ok i := by
  rcases valid with valid | rfl
  · obtain ⟨letter,data⟩ := i
    obtain ⟨range,some,short⟩ := valid
    simp only at range some short
    have length := length_hexEncode data
    change ParseID (prefixString letter ++ hexEncode data) = _
    rw [prefixString]
    rcases range with rfl | range
    · have none : ¬ (103 ≤ (0 : UInt8) ∧ (0 : UInt8) ≤ 122) := by decide
      rw [if_neg none,List.nil_append,ParseID_even (List.ne_nil_of_length_pos (by omega)) (by omega)]
      exact parseHash_hexEncode _ _ some short
    · have odd : (letter :: hexEncode data).length % 2 = 1 := by
        rw [List.length_cons]
        omega
      rw [if_pos range,List.singleton_append,ParseID,if_pos odd,if_neg (by simpa using range)]
      exact parseHash_hexEncode _ _ some short
  · rfl

/-- What is read is written in lower case. -/
theorem String_ParseID {s : Bytes} {i : ID} (parsed : ParseID s = .ok i) :
    i.String = s.map lowerHex ∧ (i.Valid ∨ i = EmptyID) := by
  cases s with
  | nil =>
    cases parsed
    exact ⟨rfl,.inr rfl⟩
  | cons letter digits =>
    rw [ParseID] at parsed
    split at parsed
    next =>
      split at parsed
      next => contradiction
      next range =>
        simp only [not_or,not_lt] at range
        obtain ⟨equal,text,some,short⟩ := parseHash_ok parsed
        have lower : lowerHex letter = letter := by
          refine if_neg fun upper => ?_
          have least := UInt8.le_iff_toNat_le.mp range.1
          have most := UInt8.le_iff_toNat_le.mp upper.2
          simp at least most
          omega
        rw [ID.String,equal,prefixString,if_pos range,text,List.map_cons,lower]
        exact ⟨rfl,.inl ⟨.inr (equal ▸ range),some,short⟩⟩
    next =>
      obtain ⟨equal,text,some,short⟩ := parseHash_ok parsed
      rw [ID.String,equal,text]
      exact ⟨rfl,.inl ⟨.inl equal,some,short⟩⟩

theorem Append_eq {i : ID} (valid : i.Valid ∨ i = EmptyID) (out : Bytes) : i.Append out = out ++ i.String := by
  rw [ID.Append,ID.String,prefixString]
  rcases valid with ⟨none | range,_⟩ | rfl
  · rw [none]
    simp
  · have some : i.idPrefix ≠ 0 := by
      intro none
      rw [none] at range
      exact absurd range.1 (by decide)
    simp [range,some]
  · rfl

end Parsing

end Vbe.Index
