import Vbe.Library.Bytes

/-! Content identifiers: an optional one-letter prefix and a hash, the two orders
the index code compares them by, and ranges of identifiers. The bytes of the hash
array past `idLen` are zero in every constructed identifier and are not stored. -/
namespace Vbe.Index
open Vbe.Library.Bytes

abbrev Bytes := List UInt8

/-- `hashing.MaxHashSize`. -/
def maxHashSize : Nat := 32

/-- A prefix is the empty string or one letter from 'g' to 'z'. -/
abbrev IDPrefix := Bytes

/-- `idPrefix` is zero when there is no prefix; `data` is the array's first
`idLen` bytes. -/
structure ID where
  idPrefix : UInt8
  data : Bytes
deriving DecidableEq

def EmptyID : ID := ⟨0,[]⟩

/-- What `IDFromHash` and `ParseID` check before they return an identifier. -/
def ID.Valid (i : ID) : Prop :=
  (i.idPrefix = 0 ∨ 103 ≤ i.idPrefix ∧ i.idPrefix ≤ 122) ∧ 1 ≤ i.data.length ∧ i.data.length ≤ maxHashSize

instance (i : ID) : Decidable i.Valid := by unfold ID.Valid; infer_instance

inductive IDError
  | hashTooLong
  | hashTooShort
  | invalidPrefix
deriving DecidableEq

def IDPrefix.validateSingle (p : IDPrefix) : Bool :=
  match p with
  | [] => true
  | [letter] => 103 ≤ letter && letter ≤ 122
  | _ => false

def IDFromHash (p : IDPrefix) (hash : Bytes) : Except IDError ID :=
  if hash.length > maxHashSize then .error .hashTooLong
  else if hash.length = 0 then .error .hashTooShort
  else if !IDPrefix.validateSingle p then .error .invalidPrefix
  else .ok ⟨p.headD 0,hash⟩

theorem IDFromHash_valid {p : IDPrefix} {hash : Bytes} {i : ID} (made : IDFromHash p hash = .ok i) :
    i.Valid ∧ i.data = hash := by
  unfold IDFromHash at made
  split at made
  next => contradiction
  next short =>
    split at made
    next => contradiction
    next long =>
      split at made
      next => contradiction
      next checked =>
        cases Except.ok.inj made
        refine ⟨⟨?_,by simp only; omega,by simp only; omega⟩,rfl⟩
        match p, checked with
        | [], _ => exact Or.inl rfl
        | [letter], checked => exact Or.inr (by simpa [IDPrefix.validateSingle] using checked)
        | _ :: _ :: _, checked => simp [IDPrefix.validateSingle] at checked

namespace ID

def HasPrefix (i : ID) : Bool := i.idPrefix != 0

def Hash (i : ID) : Bytes := i.data

def less (i other : ID) : Bool :=
  if i.idPrefix ≠ other.idPrefix then
    if other.idPrefix = 0 then false else i.idPrefix < other.idPrefix
  else i.data < other.data

end ID

def contentIDToBytes (c : ID) : Bytes := c.idPrefix :: c.data

/-- `none` stands for the panic of slicing the hash array past its end. -/
def bytesToContentID : Bytes → Option ID
  | [] => some EmptyID
  | letter :: data => if data.length ≤ maxHashSize then some ⟨letter,data⟩ else none

theorem bytesToContentID_contentIDToBytes {c : ID} (fits : c.data.length ≤ maxHashSize) :
    bytesToContentID (contentIDToBytes c) = some c := by
  simp [contentIDToBytes,bytesToContentID,fits]

theorem contentIDToBytes_injective : Function.Injective contentIDToBytes := by
  rintro ⟨letter,data⟩ ⟨otherLetter,otherData⟩ same
  simpa [contentIDToBytes] using same

/-- Valid identifiers are ordered as their key bytes are: no prefix is the
smallest prefix byte. -/
theorem ID.less_iff {i other : ID} : i.less other ↔ contentIDToBytes i < contentIDToBytes other := by
  unfold ID.less contentIDToBytes
  rw [List.cons_lt_cons_iff]
  by_cases same : i.idPrefix = other.idPrefix
  · simp [same]
  · by_cases none : other.idPrefix = 0
    · have least : ¬ i.idPrefix < 0 := not_lt.mpr (UInt8.le_iff_toNat_le.mpr (Nat.zero_le _))
      simp [none ▸ same,none,least]
    · simp [same,none]

section Text

/-- One lower-case hexadecimal digit. -/
def hexDigit (n : Nat) : UInt8 := if n < 10 then UInt8.ofNat (48 + n) else UInt8.ofNat (87 + n)

def hexEncode (data : Bytes) : Bytes :=
  data.flatMap fun b => [hexDigit (b.toNat / 16),hexDigit (b.toNat % 16)]

def prefixString (letter : UInt8) : IDPrefix :=
  if 103 ≤ letter ∧ letter ≤ 122 then [letter] else []

def ID.String (i : ID) : Bytes := prefixString i.idPrefix ++ hexEncode i.data

/-- `bytes.Compare` and `strings.Compare`. -/
def compareBytes (a b : Bytes) : Ordering := if a < b then .lt else if a = b then .eq else .gt

def ID.comparePrefix (i : ID) (p : IDPrefix) : Ordering :=
  match p with
  | [] => if i = EmptyID then .eq else .gt
  | _ => compareBytes i.String p

theorem hexDigit_lt {m n : Nat} (less : m < n) (bound : n < 16) : hexDigit m < hexDigit n := by
  rw [UInt8.lt_iff_toNat_lt]
  unfold hexDigit
  split <;> split <;> simp <;> omega

theorem hexDigit_lt_letter (n : Nat) (bound : n < 16) (letter : UInt8) (lower : 103 ≤ letter) :
    hexDigit n < letter := by
  have value := UInt8.le_iff_toNat_le.mp lower
  rw [UInt8.lt_iff_toNat_lt]
  unfold hexDigit
  split <;> simp at value ⊢ <;> omega

theorem hexEncode_lt {a b : Bytes} (less : a < b) : hexEncode a < hexEncode b := by
  induction a generalizing b with
  | nil =>
    cases b with
    | nil => simp at less
    | cons y b => simp [hexEncode,List.nil_lt_cons]
  | cons x a ih =>
    cases b with
    | nil => simp at less
    | cons y b =>
      simp only [hexEncode,List.flatMap_cons,List.cons_append,List.nil_append,List.cons_lt_cons_iff]
      rcases List.cons_lt_cons_iff.mp less with smaller | ⟨rfl,rest⟩
      · have value := UInt8.lt_iff_toNat_lt.mp smaller
        have bx := x.toNat_lt
        have byt := y.toNat_lt
        by_cases high : x.toNat / 16 < y.toNat / 16
        · exact Or.inl (hexDigit_lt high (by omega))
        · have equal : x.toNat / 16 = y.toNat / 16 := by omega
          exact Or.inr ⟨by rw [equal],Or.inl (hexDigit_lt (by omega) (by omega))⟩
      · exact Or.inr ⟨rfl,Or.inr ⟨rfl,ih rest⟩⟩

/-- The text order agrees with the key order, because hexadecimal digits sort
before the prefix letters. -/
theorem ID.String_lt {i other : ID} (valid : i.Valid) (otherValid : other.Valid)
    (less : contentIDToBytes i < contentIDToBytes other) : i.String < other.String := by
  obtain ⟨letter,data⟩ := i
  obtain ⟨otherLetter,otherData⟩ := other
  simp only [ID.Valid] at valid otherValid
  simp only [contentIDToBytes,List.cons_lt_cons_iff] at less
  simp only [ID.String]
  rcases less with smaller | ⟨rfl,rest⟩
  · have upper : 103 ≤ otherLetter ∧ otherLetter ≤ 122 := by
      rcases otherValid.1 with rfl | range
      · exact absurd smaller (not_lt.mpr (UInt8.le_iff_toNat_le.mpr (Nat.zero_le _)))
      · exact range
    rcases valid.1 with rfl | range
    · match data, valid.2 with
      | [], size => simp at size
      | x :: data, _ =>
        have first := hexDigit_lt_letter (x.toNat / 16) (by have := x.toNat_lt; omega) otherLetter upper.1
        simp [prefixString,upper,hexEncode,List.cons_lt_cons_iff,first]
    · simp [prefixString,upper,range,List.cons_lt_cons_iff,smaller]
  · have data_lt := hexEncode_lt rest
    unfold prefixString
    split
    · simpa [List.cons_lt_cons_iff] using data_lt
    · simpa using data_lt

theorem ID.comparePrefix_eq {i : ID} (valid : i.Valid) (p : IDPrefix) :
    i.comparePrefix p = compareBytes i.String p := by
  cases p with
  | cons x p => rfl
  | nil =>
    have some_data : i.data ≠ [] := by
      intro empty
      have := valid.2.1
      simp [empty] at this
    have differs : i ≠ EmptyID := fun equal => some_data (by rw [equal]; rfl)
    have text : i.String ≠ [] := by
      intro empty
      obtain ⟨x,data,shape⟩ := List.exists_cons_of_ne_nil some_data
      simp [ID.String,hexEncode,shape] at empty
    simp [ID.comparePrefix,differs,compareBytes,text]

theorem compareBytes_ne_lt {a b : Bytes} : compareBytes a b ≠ .lt ↔ b ≤ a := by
  unfold compareBytes
  split
  next less => simpa using less
  next notLess =>
    rw [not_lt] at notLess
    split <;> simp [notLess]

end Text

/-- `StartID` is inclusive, `EndID` exclusive. -/
structure IDRange where
  startID : IDPrefix
  endID : IDPrefix
deriving DecidableEq

def IDRange.Contains (r : IDRange) (i : ID) : Bool :=
  i.comparePrefix r.startID ≠ .lt ∧ i.comparePrefix r.endID = .lt

/-- "\x7B", the character after 'z'. -/
def maxIDCharacterPlus1 : IDPrefix := [123]

def AllIDs : IDRange := ⟨[],maxIDCharacterPlus1⟩

end Vbe.Index
