import Vbe.Index.Parsing
import Vbe.Objects.Objectid

/-! Identifiers of objects and of contents as texts. -/
namespace Vbe.Objects
open Vbe.Index (Bytes)

section Texts

theorem hexDigit_ne (n : Nat) (bound : n < 16) : Index.hexDigit n ≠ 73 ∧ Index.hexDigit n ≠ 90 ∧ Index.hexDigit n ≠ 68 := by
  revert n
  decide

/-- The text of a content starts with a hexadecimal digit or a prefix. -/
theorem cid_head {cid : Index.ID} (valid : cid.Valid) :
    ∃ first rest, cid.String = first :: rest ∧ first ≠ 73 ∧ first ≠ 90 ∧ first ≠ 68 := by
  obtain ⟨letter,data⟩ := cid
  obtain ⟨_,some,_⟩ := valid
  rw [Index.ID.String,Index.prefixString]
  split
  next range =>
    have lower : 103 ≤ letter := range.1
    refine ⟨letter,_,rfl,?_,?_,?_⟩
    all_goals
      rintro rfl
      contradiction
  next =>
    cases data with
    | nil => exact absurd some (Nat.not_succ_le_zero 0)
    | cons b data => exact ⟨_,_,rfl,hexDigit_ne _ (by have := b.toNat_lt; omega)⟩

theorem contentString_injective {cid cid' : Index.ID} (valid : cid.Valid) (valid' : cid'.Valid) (same : cid.String = cid'.String) :
    cid = cid' := by
  by_contra different
  have keys : Index.contentIDToBytes cid ≠ Index.contentIDToBytes cid' := fun equal =>
    different (Index.contentIDToBytes_injective equal)
  rcases lt_or_gt_of_ne keys with less | greater
  · exact absurd (Index.ID.String_lt valid valid' less) (by simp [same])
  · exact absurd (Index.ID.String_lt valid' valid greater) (by simp [same])

/-- The number of index levels is the number of leading letters. -/
theorem takeWhile_String {i : ID} (valid : i.cid.Valid) :
    i.String.takeWhile (· = 73) = List.replicate i.indirection.toNat 73 := by
  obtain ⟨first,rest,text,letter,_⟩ := cid_head valid
  rw [ID.String,List.append_assoc,List.takeWhile_append_of_pos (by simp)]
  cases i.compression with
  | true => simp
  | false => simp [text,letter]

theorem String_injective {i j : ID} (valid : i.cid.Valid) (valid' : j.cid.Valid) (same : i.String = j.String) : i = j := by
  have counts := takeWhile_String valid
  rw [same,takeWhile_String valid'] at counts
  have level : j.indirection = i.indirection := by
    have lengths := congrArg List.length counts
    rw [List.length_replicate,List.length_replicate] at lengths
    exact UInt8.toNat_inj.mp lengths
  rw [ID.String,ID.String,level,List.append_assoc,List.append_assoc,List.append_cancel_left_eq] at same
  obtain ⟨first,rest,text,_,letter,_⟩ := cid_head valid
  obtain ⟨first',rest',text',_,letter',_⟩ := cid_head valid'
  obtain ⟨cid,levels,compressed⟩ := i
  obtain ⟨cid',levels',compressed'⟩ := j
  cases level
  cases compressed with
  | true =>
    cases compressed' with
    | true => exact congrArg (ID.mk · levels true) (contentString_injective valid valid' (List.append_cancel_left same))
    | false =>
      rw [text'] at same
      exact absurd (List.cons.inj same).1.symm letter'
  | false =>
    cases compressed' with
    | true =>
      rw [text] at same
      exact absurd (List.cons.inj same).1 letter
    | false => exact congrArg (ID.mk · levels false) (contentString_injective valid valid' same)

end Texts

section Parsing

inductive ParseError
  | exclusive
  | contentID (s : Bytes) (err : Index.ParseError)
deriving DecidableEq

/-- The leading letters are counted in one byte. -/
def countLevels (indirection : UInt8) : Bytes → UInt8 × Bytes
  | [] => (indirection,[])
  | c :: s => if c = 73 then countLevels (indirection + 1) s else (indirection,c :: s)

def ParseID (s : Bytes) : Except ParseError ID :=
  let (indirection,s) := countLevels 0 s
  let compression := s.head? = some 90
  let s := if compression then s.drop 1 else s
  -- no-op, legacy case
  let s := if s.head? = some 68 then s.drop 1 else s
  if indirection > 0 ∧ compression then .error .exclusive
  else
    match Index.ParseID s with
    | .error err => .error (.contentID s err)
    | .ok cid => .ok ⟨cid,indirection,compression⟩

def ID.Append (i : ID) (out : Bytes) : Bytes :=
  let out := out ++ List.replicate i.indirection.toNat 73
  let out := if i.compression then out ++ [90] else out
  i.cid.Append out

end Parsing

section Meaning

def levels (s : Bytes) : Nat := (s.takeWhile (· = 73)).length

/-- A text with the legacy letter left out and its hexadecimal digits in lower case. -/
def plain (s : Bytes) : Bytes :=
  let text := s.dropWhile (· = 73)
  let (compressed,text) := if text.head? = some 90 then ([90],text.drop 1) else ([],text)
  let text := if text.head? = some 68 then text.drop 1 else text
  s.takeWhile (· = 73) ++ compressed ++ text.map Index.lowerHex

theorem countLevels_eq (indirection : UInt8) (s : Bytes) :
    countLevels indirection s = (indirection + UInt8.ofNat (levels s),s.dropWhile (· = 73)) := by
  induction s generalizing indirection with
  | nil => simp [countLevels,levels]
  | cons c s ih =>
    rw [countLevels,levels]
    split
    next letter =>
      rw [ih,levels]
      simp [letter,UInt8.add_assoc,UInt8.add_comm 1]
    next other => simp [other]

/-- Identifiers that are made from that of a content, compressed or not and with some index levels. -/
inductive Made (cid : Index.ID) : Bool → Nat → ID → Prop
  | direct : Made cid false 0 (DirectObjectID cid)
  | compressed {compression n i} (made : Made cid compression n i) : Made cid true n (Compressed i)
  | indirect {compression n i} (made : Made cid compression n i) : Made cid compression (n + 1) (IndirectObjectID i)

theorem Made.eq {cid : Index.ID} {compression : Bool} {n : Nat} {i : ID} (made : Made cid compression n i) :
    i = ⟨cid,UInt8.ofNat n,compression⟩ := by
  induction made with
  | direct => rfl
  | compressed _ ih => rw [ih,Compressed]
  | indirect _ ih =>
    rw [ih,IndirectObjectID]
    simp

theorem takeWhile_levels (s : Bytes) : s.takeWhile (· = 73) = List.replicate (levels s) 73 := by
  rw [List.eq_replicate_iff]
  refine ⟨rfl,fun c member => ?_⟩
  have all := List.all_takeWhile (p := fun c : UInt8 => decide (c = 73)) (l := s)
  exact of_decide_eq_true (List.all_eq_true.mp all c member)

theorem levels_append (n : Nat) (tail : Bytes) (other : tail.head? ≠ some 73) :
    levels (List.replicate n 73 ++ tail) = n ∧ (List.replicate n 73 ++ tail).dropWhile (· = 73) = tail := by
  have letters : ∀ c ∈ List.replicate n (73 : UInt8), decide (c = 73) = true := by simp
  rw [levels,List.takeWhile_append_of_pos letters,List.dropWhile_append_of_pos letters]
  cases tail with
  | nil => simp
  | cons c tail =>
    have different : c ≠ 73 := fun same => other (congrArg some same)
    simp [different]

/-- An identifier is read back from its text, if it is that of a content or an index, and not a compressed index. -/
theorem ParseID_String {i : ID} (valid : i.cid.Valid ∨ i.cid = Index.EmptyID) (single : ¬ (i.indirection > 0 ∧ i.compression = true)) :
    ParseID i.String = .ok i := by
  obtain ⟨cid,indirection,compression⟩ := i
  have head (c : UInt8) (letter : c = 73 ∨ c = 90 ∨ c = 68) : cid.String.head? ≠ some c := by
    rcases valid with valid | empty
    · obtain ⟨first,rest,text,other,other',other''⟩ := cid_head valid
      rw [text,List.head?_cons]
      rintro ⟨rfl⟩
      simp [other,other',other''] at letter
    · have none : cid.String = [] := congrArg Index.ID.String empty
      simp [none]
  have parsed := Index.ParseID_String (valid : cid.Valid ∨ cid = Index.EmptyID)
  obtain ⟨count,rest⟩ := levels_append indirection.toNat ((if compression then [90] else []) ++ cid.String) (by
    cases compression with
    | true => simp
    | false => exact head 73 (.inl rfl))
  rw [ID.String,List.append_assoc,ParseID,countLevels_eq,count,rest,UInt8.zero_add,UInt8.ofNat_toNat]
  cases compression with
  | true =>
    have none : ¬ indirection > 0 := fun some => single ⟨some,rfl⟩
    simp [none,head 68,parsed]
  | false => simp [head 90,head 68,parsed]

/-- What is accepted. -/
theorem ParseID_ok {s : Bytes} {i : ID} (parsed : ParseID s = .ok i) :
    i.indirection = UInt8.ofNat (levels s) ∧ (i.cid.Valid ∨ i.cid = Index.EmptyID) ∧ ¬ (i.indirection > 0 ∧ i.compression = true) ∧
      plain s = List.replicate (levels s) 73 ++ (if i.compression then [90] else []) ++ i.cid.String := by
  rw [ParseID,countLevels_eq,UInt8.zero_add] at parsed
  rw [plain,takeWhile_levels]
  simp only at parsed
  split at parsed
  next => contradiction
  next single =>
    split at parsed
    next => contradiction
    next cid text =>
      cases parsed
      obtain ⟨lower,valid⟩ := Index.String_ParseID text
      refine ⟨rfl,valid,fun both => single ⟨both.1,of_decide_eq_true both.2⟩,?_⟩
      simp only [lower]
      by_cases compressed : (s.dropWhile (· = 73)).head? = some 90
      · simp [compressed]
      · simp [compressed]

theorem Append_eq {i : ID} (valid : i.cid.Valid ∨ i.cid = Index.EmptyID) (out : Bytes) : i.Append out = out ++ i.String := by
  rw [ID.Append,ID.String,Index.Append_eq valid]
  cases i.compression <;> simp

end Meaning

section Claims

/-- A compressed object with an index is not read back. -/
theorem compressed_index_exclusive : (⟨0,[171]⟩ : Index.ID).Valid ∧
    Made ⟨0,[171]⟩ true 1 (IndirectObjectID (Compressed (DirectObjectID ⟨0,[171]⟩))) ∧
    ParseID (IndirectObjectID (Compressed (DirectObjectID ⟨0,[171]⟩))).String = .error .exclusive :=
  ⟨by decide,.indirect (.compressed .direct),by decide⟩

/-- Identifiers are read back from their texts, and texts with few levels are written again as they were read. -/
theorem texts_round_trip :
    (∀ cid compression n i, cid.Valid → Made cid compression n i → n ≤ 255 →
      (compression = false ∨ n = 0 → ParseID i.String = .ok i) ∧ ∀ out, i.Append out = out ++ i.String) ∧
    (∀ s i, ParseID s = .ok i → ParseID i.String = .ok i ∧ ∀ out, i.Append out = out ++ i.String) ∧
    (∀ s i, levels s ≤ 255 → ParseID s = .ok i → i.String = plain s) ∧
    ∀ s s' i j, levels s ≤ 255 → levels s' ≤ 255 → levels s ≠ levels s' → ParseID s = .ok i → ParseID s' = .ok j → i ≠ j := by
  have small {s : Bytes} (few : levels s ≤ 255) : (UInt8.ofNat (levels s)).toNat = levels s := by
    rw [UInt8.toNat_ofNat']
    omega
  refine ⟨?_,?_,?_,?_⟩
  · intro cid compression n i valid made bound
    rw [made.eq]
    refine ⟨fun single => ParseID_String (.inl valid) ?_,Append_eq (.inl valid)⟩
    rcases single with plain | single
    · exact fun both => Bool.noConfusion (plain ▸ both.2)
    · rw [single]
      have none : ¬ UInt8.ofNat 0 > 0 := by decide
      exact fun both => none both.1
  · intro s i parsed
    obtain ⟨_,valid,single,_⟩ := ParseID_ok parsed
    exact ⟨ParseID_String valid single,Append_eq valid⟩
  · intro s i few parsed
    obtain ⟨level,_,_,text⟩ := ParseID_ok parsed
    rw [text,ID.String,level,small few]
  · intro s s' i j few few' different parsed parsed' same
    obtain ⟨level,_⟩ := ParseID_ok parsed
    obtain ⟨level',_⟩ := ParseID_ok parsed'
    rw [same,level'] at level
    have equal := congrArg UInt8.toNat level
    rw [small few,small few'] at equal
    exact different equal.symm

theorem texts_round_trip_legacy : ParseID [73,68,103,65,66] = .ok ⟨⟨103,[171]⟩,1,false⟩ ∧
    (⟨⟨103,[171]⟩,1,false⟩ : ID).String = plain [73,68,103,65,66] :=
  ⟨by decide,texts_round_trip.2.2.1 _ _ (by decide) (by decide)⟩

end Claims

end Vbe.Objects
