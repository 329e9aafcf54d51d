import Mathlib.Data.Nat.Digits.Defs
import Mathlib.Data.Nat.Digits.Lemmas
import Vbe.Objects.Backing
import Vbe.Objects.IdTexts

/-! The text of an index, as the standard encoder of JSON writes it. Different indexes have different texts, so that a decoder
can read them back. -/
namespace Vbe.Objects
open Vbe.Index (Bytes)

section Encode

def decimal (n : Nat) : Bytes :=
  if n = 0 then [48] else (Nat.digits 10 n).reverse.map fun d => UInt8.ofNat (48 + d)

def integer (i : Int) : Bytes := if i < 0 then 45 :: decimal i.natAbs else decimal i.natAbs

/-- A field with a one-letter name that is omitted when it is zero. -/
def omitempty (key : UInt8) (i : Int) : Bytes := if i = 0 then [] else [34,key,34,58] ++ integer i ++ [44]

namespace IndirectObjectEntry

def fields (i : IndirectObjectEntry) : Bytes :=
  omitempty 115 i.Start ++ (omitempty 108 i.Length ++ ([34,111,34,58,34] ++ (i.Object.String ++ [34])))

def json (i : IndirectObjectEntry) : Bytes := 123 :: (i.fields ++ [125])

/-- The entries that a writer makes: of parts that are single contents. -/
structure Encodable (i : IndirectObjectEntry) : Prop where
  start : 0 ≤ i.Start
  length : 0 ≤ i.Length
  single : i.Object.indirection = 0
  valid : i.Object.cid.Valid

end IndirectObjectEntry

def entriesJSON : List IndirectObjectEntry → Bytes
  | [] => []
  | [e] => e.json
  | e :: es => e.json ++ 44 :: entriesJSON es

/-- `Encode` of an `indirectObject`. -/
def encode (entries : List IndirectObjectEntry) : Bytes :=
  ascii "\x7b\"stream\":\"kopia:indirect\",\"entries\":[" ++ (entriesJSON entries ++ [93,125,10])

/-- A decoder decodes what the encoder writes. -/
def Decoder.Inverts (json : Decoder) : Prop :=
  ∀ entries, (∀ e ∈ entries, e.Encodable) → ∃ left, json.Decodes (encode entries) entries left

end Encode

section Numbers

theorem mem_digit {n : Nat} {b : UInt8} (member : b ∈ decimal n) : 48 ≤ b ∧ b ≤ 57 := by
  rw [decimal] at member
  split at member
  · obtain rfl := List.mem_singleton.mp member
    decide
  · obtain ⟨d,digit,rfl⟩ := List.mem_map.mp member
    have small := Nat.digits_lt_base (by decide) (List.mem_reverse.mp digit)
    rw [UInt8.le_iff_toNat_le,UInt8.le_iff_toNat_le,UInt8.toNat_ofNat']
    simp
    omega

theorem decimal_digits {n : Nat} (some : n ≠ 0) : (decimal n).map (fun b => b.toNat - 48) = (Nat.digits 10 n).reverse := by
  rw [decimal,if_neg some,List.map_map]
  have back : ∀ d ∈ (Nat.digits 10 n).reverse, ((fun b : UInt8 => b.toNat - 48) ∘ fun d => UInt8.ofNat (48 + d)) d = id d := by
    intro d digit
    have small := Nat.digits_lt_base (by decide) (List.mem_reverse.mp digit)
    rw [Function.comp_apply,UInt8.toNat_ofNat',Nat.mod_eq_of_lt (by omega),Nat.add_sub_cancel_left,id]
  rw [List.map_congr_left back,List.map_id]

theorem integer_injective {i j : Int} (nonneg : 0 ≤ i) (nonneg' : 0 ≤ j) (some : i ≠ 0) (some' : j ≠ 0)
    (same : integer i = integer j) : i = j := by
  rw [integer,integer,if_neg (by omega),if_neg (by omega)] at same
  have digits := congrArg (List.map fun b : UInt8 => b.toNat - 48) same
  rw [decimal_digits (by omega),decimal_digits (by omega)] at digits
  have equal := Nat.digits.injective 10 (List.reverse_injective digits)
  omega

theorem mem_integer {i : Int} {b : UInt8} (nonneg : 0 ≤ i) (member : b ∈ integer i) : 48 ≤ b ∧ b ≤ 57 := by
  rw [integer,if_neg (by omega)] at member
  exact mem_digit member

theorem length_integer {i : Int} (nonneg : 0 ≤ i) (short : i < 2 ^ 63) : (integer i).length ≤ 19 := by
  rw [integer,if_neg (by omega),decimal]
  split
  · simp
  · rw [List.length_map,List.length_reverse,Nat.digits_length_le_iff (by decide)]
    omega

/-- What follows a field that may be omitted is another field. -/
theorem omitempty_inj {key : UInt8} {i j : Int} {x y : Bytes} (nonneg : 0 ≤ i) (nonneg' : 0 ≤ j) (other : x[1]? ≠ some key)
    (other' : y[1]? ≠ some key) (same : omitempty key i ++ x = omitempty key j ++ y) : i = j ∧ x = y := by
  have comma {k : Int} (nonneg : 0 ≤ k) : (44 : UInt8) ∉ integer k := fun member => absurd (mem_integer nonneg member).1 (by decide)
  rw [omitempty,omitempty] at same
  by_cases zero : i = 0
  · by_cases zero' : j = 0
    · rw [if_pos zero,if_pos zero'] at same
      exact ⟨zero.trans zero'.symm,same⟩
    · rw [if_pos zero,if_neg zero',List.nil_append] at same
      exact absurd (by simp [same]) other
  · by_cases zero' : j = 0
    · rw [if_neg zero,if_pos zero',List.nil_append] at same
      exact absurd (by simp [← same]) other'
    · rw [if_neg zero,if_neg zero'] at same
      simp only [List.append_assoc,List.cons_append,List.nil_append,List.cons.injEq,true_and] at same
      obtain ⟨digits,rest⟩ := Library.Bytes.append_delimiter (comma nonneg) (comma nonneg') same
      exact ⟨integer_injective nonneg nonneg' zero zero' digits,rest⟩

end Numbers

section Identifiers

theorem mem_hexEncode {data : Bytes} {b : UInt8} (member : b ∈ Index.hexEncode data) : 48 ≤ b ∧ b < 103 ∧ b ≠ 90 := by
  obtain ⟨x,_,half⟩ := List.mem_flatMap.mp member
  have value := x.toNat_lt
  have digit (n : Nat) (bound : n < 16) : 48 ≤ Index.hexDigit n ∧ Index.hexDigit n < 103 ∧ Index.hexDigit n ≠ 90 := by
    decide +revert
  rcases List.mem_pair.mp half with rfl | rfl
  · exact digit _ (by omega)
  · exact digit _ (by omega)

theorem mem_contentString {i : Index.ID} {b : UInt8} (member : b ∈ i.String) : 48 ≤ b ∧ b ≤ 122 ∧ b ≠ 90 := by
  rw [Index.ID.String,Index.prefixString,List.mem_append] at member
  rcases member with letter | digit
  · split at letter
    next range =>
      obtain rfl := List.mem_singleton.mp letter
      refine ⟨le_trans (by decide) range.1,range.2,fun same => ?_⟩
      exact absurd (same ▸ range.1) (by decide)
    next => exact absurd letter List.not_mem_nil
  · obtain ⟨low,high,other⟩ := mem_hexEncode digit
    exact ⟨low,high.le.trans (by decide),other⟩

theorem length_contentString {i : Index.ID} (valid : i.Valid) : i.String.length ≤ 65 := by
  have hex : (Index.hexEncode i.data).length = 2 * i.data.length := by
    rw [Index.hexEncode,List.length_flatMap]
    simp [Nat.mul_comm]
  have data : i.data.length ≤ 32 := valid.2.2
  rw [Index.ID.String,Index.prefixString,List.length_append,hex]
  split
  · simp only [List.length_singleton]
    omega
  · simp only [List.length_nil]
    omega

theorem String_single {oid : ID} (single : oid.indirection = 0) : oid.String = (if oid.compression then [90] else []) ++ oid.cid.String := by
  rw [ID.String,single]
  rfl

end Identifiers

section Entries
namespace IndirectObjectEntry

theorem Encodable.String {i : IndirectObjectEntry} (encodable : i.Encodable) {b : UInt8} (member : b ∈ i.Object.String) :
    48 ≤ b ∧ b ≤ 122 := by
  rw [String_single encodable.single,List.mem_append] at member
  rcases member with letter | rest
  · split at letter
    · obtain rfl := List.mem_singleton.mp letter
      decide
    · exact absurd letter List.not_mem_nil
  · exact ⟨(mem_contentString rest).1,(mem_contentString rest).2.1⟩

theorem fields_injective {i j : IndirectObjectEntry} (encodable : i.Encodable) (encodable' : j.Encodable) (same : i.fields = j.fields) :
    i = j := by
  have length {k : Int} {x : Bytes} (other : x[1]? = some 111) : (omitempty 108 k ++ x)[1]? ≠ some 115 := by
    rw [omitempty]
    split
    · simp [other]
    · simp
  obtain ⟨start,rest⟩ := omitempty_inj encodable.start encodable'.start (length rfl) (length rfl) same
  obtain ⟨size,rest⟩ := omitempty_inj encodable.length encodable'.length (by simp) (by simp) rest
  have quote {k : IndirectObjectEntry} (encodable : k.Encodable) : (34 : UInt8) ∉ k.Object.String :=
    fun member => absurd (encodable.String member).1 (by decide)
  simp only [List.cons_append,List.nil_append,List.cons.injEq,true_and] at rest
  obtain ⟨object,_⟩ := Library.Bytes.append_delimiter (quote encodable) (quote encodable') rest
  have equal := String_injective encodable.valid encodable'.valid object
  obtain ⟨_,_,_⟩ := i
  obtain ⟨_,_,_⟩ := j
  obtain rfl : _ = _ := start
  obtain rfl : _ = _ := size
  obtain rfl : _ = _ := equal
  rfl

/-- A brace ends an entry. -/
theorem fields_open {i : IndirectObjectEntry} (encodable : i.Encodable) : (125 : UInt8) ∉ i.fields := by
  have number {key : UInt8} (other : key ≠ 125) {k : Int} (nonneg : 0 ≤ k) : (125 : UInt8) ∉ omitempty key k := by
    rw [omitempty]
    split
    · exact List.not_mem_nil
    · intro member
      simp only [List.mem_append,List.mem_cons,List.not_mem_nil,or_false] at member
      rcases member with (name | digit) | comma
      · rcases name with none | same | none | none
        · exact absurd none (by decide)
        · exact other same.symm
        · exact absurd none (by decide)
        · exact absurd none (by decide)
      · exact absurd (mem_integer nonneg digit).2 (by decide)
      · exact absurd comma (by decide)
  rw [fields]
  intro member
  simp only [List.mem_append] at member
  rcases member with start | length | name | text | quote
  · exact number (by decide) encodable.start start
  · exact number (by decide) encodable.length length
  · exact absurd name (by decide)
  · exact absurd (encodable.String text).2 (by decide)
  · exact absurd quote (by decide)

theorem length_json {i : IndirectObjectEntry} (encodable : i.Encodable) (start : i.Start < 2 ^ 63) (length : i.Length < 2 ^ 63) :
    i.json.length ≤ 122 := by
  have number (key : UInt8) {k : Int} (nonneg : 0 ≤ k) (short : k < 2 ^ 63) : (omitempty key k).length ≤ 24 := by
    have digits := length_integer nonneg short
    rw [omitempty]
    split
    · simp
    · simp only [List.length_append,List.length_cons,List.length_nil]
      omega
  have first := number 115 encodable.start start
  have second := number 108 encodable.length length
  have text := length_contentString encodable.valid
  have object : i.Object.String.length ≤ 66 := by
    rw [String_single encodable.single,List.length_append]
    split
    · simp only [List.length_singleton]
      omega
    · simp only [List.length_nil]
      omega
  simp only [json,fields,List.length_cons,List.length_append,List.length_nil]
  omega

end IndirectObjectEntry

theorem length_entriesJSON {entries : List IndirectObjectEntry}
    (short : ∀ e ∈ entries, e.Encodable ∧ e.Start < 2 ^ 63 ∧ e.Length < 2 ^ 63) : (entriesJSON entries).length ≤ 123 * entries.length := by
  induction entries with
  | nil => simp [entriesJSON]
  | cons e entries ih =>
    obtain ⟨encodable,start,length⟩ := short e List.mem_cons_self
    have own := IndirectObjectEntry.length_json encodable start length
    have rest := ih fun e' member => short e' (List.mem_cons_of_mem _ member)
    cases entries with
    | nil =>
      simp only [entriesJSON,List.length_singleton]
      omega
    | cons e' entries =>
      simp only [entriesJSON,List.length_append,List.length_cons] at rest ⊢
      omega

theorem length_encode {entries : List IndirectObjectEntry}
    (short : ∀ e ∈ entries, e.Encodable ∧ e.Start < 2 ^ 63 ∧ e.Length < 2 ^ 63) : (encode entries).length ≤ 128 * (entries.length + 1) := by
  have list := length_entriesJSON short
  have front : (ascii "\x7b\"stream\":\"kopia:indirect\",\"entries\":[").length = 38 := by decide
  rw [encode,List.length_append,List.length_append,front]
  simp only [List.length_cons,List.length_nil]
  omega

theorem entriesJSON_cons (e : IndirectObjectEntry) (entries : List IndirectObjectEntry) (close : Bytes) :
    entriesJSON (e :: entries) ++ 93 :: close =
      123 :: (e.fields ++ 125 :: (if entries = [] then 93 :: close else 44 :: (entriesJSON entries ++ 93 :: close))) := by
  cases entries with
  | nil => simp [entriesJSON,IndirectObjectEntry.json]
  | cons e' entries => simp [entriesJSON,IndirectObjectEntry.json]

theorem entriesJSON_injective {entries entries' : List IndirectObjectEntry} {close close' : Bytes} (encodable : ∀ e ∈ entries, e.Encodable)
    (encodable' : ∀ e ∈ entries', e.Encodable) (same : entriesJSON entries ++ 93 :: close = entriesJSON entries' ++ 93 :: close') :
    entries = entries' := by
  induction entries generalizing entries' with
  | nil =>
    cases entries' with
    | nil => rfl
    | cons e' entries' =>
      rw [entriesJSON_cons] at same
      simp [entriesJSON] at same
  | cons e entries ih =>
    cases entries' with
    | nil =>
      rw [entriesJSON_cons] at same
      simp [entriesJSON] at same
    | cons e' entries' =>
      rw [entriesJSON_cons,entriesJSON_cons] at same
      have own := encodable e List.mem_cons_self
      have own' := encodable' e' List.mem_cons_self
      obtain ⟨head,tail⟩ := Library.Bytes.append_delimiter (IndirectObjectEntry.fields_open own) (IndirectObjectEntry.fields_open own')
        (List.cons.inj same).2
      rw [IndirectObjectEntry.fields_injective own own' head]
      split at tail
      next none =>
        split at tail
        next none' => rw [none,none']
        next => exact absurd (List.cons.inj tail).1 (by decide)
      next =>
        split at tail
        next => exact absurd (List.cons.inj tail).1 (by decide)
        next =>
          rw [ih (fun e member => encodable e (List.mem_cons_of_mem _ member))
            (fun e member => encodable' e (List.mem_cons_of_mem _ member)) (List.cons.inj tail).2]

theorem encode_injective {entries entries' : List IndirectObjectEntry} (encodable : ∀ e ∈ entries, e.Encodable)
    (encodable' : ∀ e ∈ entries', e.Encodable) (same : encode entries = encode entries') : entries = entries' :=
  entriesJSON_injective encodable encodable' (List.append_cancel_left same)

end Entries

end Vbe.Objects
