import Mathlib.Data.Nat.Prime.Basic
import Vbe.Bigmap.InternalMap

/-! Records in segments, the entries that refer to them, and tables of such entries, which growing fills anew. -/
namespace Vbe.Bigmap
open Vbe.Index (Bytes)
open Vbe.Library.Bytes Vbe.Library.Varints Vbe.Library.Probing

structure Record where
  key : Bytes
  value : Bytes

namespace Record

/-- How a record is stored. -/
def encode (hasValues : Bool) (r : Record) : Bytes :=
  UInt8.ofNat r.key.length :: (r.key ++
    if hasValues then putUvarint (UInt64.ofNat r.value.length) ++ r.value else [])

structure Valid (hasValues : Bool) (r : Record) : Prop where
  long : minKeyLength ≤ r.key.length
  short : r.key.length ≤ maxKeyLength
  value : r.value.length < 2 ^ 31
  none : hasValues = false → r.value = []

theorem Valid.keyLen {hasValues : Bool} {r : Record} (valid : r.Valid hasValues) :
    (UInt8.ofNat r.key.length).toNat = r.key.length := by
  have short := valid.short
  unfold maxKeyLength at short
  rw [UInt8.toNat_ofNat']
  omega

theorem Valid.keyLen_ne {hasValues : Bool} {r : Record} (valid : r.Valid hasValues) :
    UInt8.ofNat r.key.length ≠ 0 := by
  intro zero
  have length := valid.keyLen
  have long := valid.long
  unfold minKeyLength at long
  rw [zero] at length
  have none : (0 : UInt8).toNat = 0 := rfl
  omega

theorem Valid.valueLen {hasValues : Bool} {r : Record} (valid : r.Valid hasValues) :
    (UInt64.ofNat r.value.length).toNat = r.value.length := by
  have small := valid.value
  rw [UInt64.toNat_ofNat']
  omega

theorem encode_pos (hasValues : Bool) (r : Record) : 0 < (r.encode hasValues).length := by
  simp [encode]

theorem length_encode (hasValues : Bool) (r : Record) : (r.encode hasValues).length = 1 + r.key.length +
    if hasValues then (putUvarint (UInt64.ofNat r.value.length)).length + r.value.length else 0 := by
  cases hasValues <;> simp [encode] <;> omega

end Record

theorem Segment.slice_part (seg : Segment) {before part after : Bytes} (bytes : seg.bytes = before ++ (part ++ after))
    {low high : Nat} (starts : low = before.length) (ends : high = before.length + part.length) :
    seg.slice low high = some part := by
  subst starts ends
  have within := seg.within
  rw [bytes,List.length_append,List.length_append] at within
  unfold Segment.slice
  rw [if_pos (by omega),bytes]
  simp

theorem Segment.suffixFrom_part (seg : Segment) {before after : Bytes} (bytes : seg.bytes = before ++ after)
    {low : Nat} (starts : low = before.length) : seg.suffixFrom low = some after := by
  subst starts
  simp [suffixFrom,bytes]

/-- An entry is that of a record. -/
def Refers (segments : List Segment) (hasValues : Bool) (e : Entry) (r : Record) : Prop :=
  ∃ i seg before after, e.segment = i + 1 ∧ segments[i]? = some seg ∧ e.offset = before.length ∧
    seg.bytes = before ++ (r.encode hasValues ++ after)

/-- No position in a segment needs more than 32 bits. -/
def Small (segments : List Segment) : Prop := ∀ seg ∈ segments, seg.bytes.length < 2 ^ 32

/-- Segments are only added to. -/
def Extends (segments segments' : List Segment) : Prop :=
  ∀ (i : Nat) (seg : Segment), segments[i]? = some seg →
    ∃ seg' more, segments'[i]? = some seg' ∧ seg'.bytes = seg.bytes ++ more

theorem Refers.mono {segments segments' : List Segment} {hasValues : Bool} {e : Entry} {r : Record}
    (refers : Refers segments hasValues e r) (grows : Extends segments segments') : Refers segments' hasValues e r := by
  obtain ⟨i,seg,before,after,number,there,offset,bytes⟩ := refers
  obtain ⟨seg',more,there',bytes'⟩ := grows i seg there
  exact ⟨i,seg',before,after ++ more,number,there',offset,by rw [bytes',bytes]; simp⟩

theorem uint32_of_lt {n : Nat} (small : n < 2 ^ 32) : uint32 n = n := Nat.mod_eq_of_lt small

namespace InternalMap
variable {m : InternalMap}

theorem keyAt_of_refers {e : Entry} {r : Record} (refers : Refers m.segments m.hasValues e r)
    (valid : r.Valid m.hasValues) (small : Small m.segments) : m.keyAt e = some r.key := by
  obtain ⟨i,seg,before,after,number,there,offset,bytes⟩ := refers
  have bound := small seg (List.mem_of_getElem? there)
  have length := congrArg List.length bytes
  simp only [Record.encode,List.cons_append,List.length_append,List.length_cons] at length
  have first : seg.bytes[e.offset]? = some (UInt8.ofNat r.key.length) := by
    simp [bytes,offset,Record.encode]
  have split : seg.bytes = (before ++ [UInt8.ofNat r.key.length]) ++ (r.key ++
      ((if m.hasValues then putUvarint (UInt64.ofNat r.value.length) ++ r.value else []) ++ after)) := by
    rw [bytes]
    simp [Record.encode]
  have read : seg.slice (uint32 (e.offset + 1)) (uint32 (e.offset + 1 + r.key.length)) = some r.key := by
    rw [uint32_of_lt (by omega),uint32_of_lt (by omega),offset]
    exact seg.slice_part split (by simp) (by simp)
  simp [keyAt,number,there,first,valid.keyLen,read]

/-- Where the search for a key starts. -/
def startOf (key : Bytes) : Nat := (hashValue key).getD 0

/-- The steps in which the search for a key goes on. -/
def deltaOf (h2Prime : Nat) (key : Bytes) : Nat :=
  if (h2 key).getD 0 % h2Prime = 0 then 1 else (h2 key).getD 0 % h2Prime

theorem some_getD {α : Type} {x : Option α} (known : x.isSome) (d : α) : x = some (x.getD d) := by
  cases x with
  | none => simp at known
  | some a => rfl

theorem hashValue_some {key : Bytes} (long : minKeyLength ≤ key.length) : hashValue key = some (startOf key) := by
  refine some_getD ?_ 0
  unfold minKeyLength at long
  unfold hashValue Uint32 Uint64
  split
  next => simp
  next short => simp [show 8 ≤ key.length from Nat.not_lt.mp short]

theorem h2_some (key : Bytes) : h2 key = some ((h2 key).getD 0) := by
  refine some_getD ?_ 0
  unfold h2 Uint64
  split
  next => rfl
  next short =>
    have long : 8 ≤ key.length - 8 := by omega
    simp [long]

theorem findSlotInSlice_eq_search {key : Bytes} (long : minKeyLength ≤ key.length) (slots : List Entry) (h2Prime : Nat) :
    m.findSlotInSlice key slots h2Prime =
      search (fun e => e.segment == 0) m.keyAt startOf (deltaOf h2Prime) slots key := by
  unfold findSlotInSlice
  rw [hashValue_some long,h2_some key]
  simp only [Option.bind_eq_bind,Option.bind_some]
  refine walk_congr ?_ _ _
  intro e member
  by_cases empty : e.segment = 0
  · simp [empty,stopsAt]
  · cases read : m.keyAt e <;> simp [stopsAt,keyEquals,empty,read]

theorem coprime_deltaOf {h2Prime size : Nat} (positive : 0 < h2Prime) (le : h2Prime ≤ size) (prime : size.Prime)
    (key : Bytes) : (deltaOf h2Prime key).Coprime size := by
  unfold deltaOf
  split
  next => exact Nat.coprime_one_left size
  next nonzero =>
    have below := Nat.mod_lt ((h2 key).getD 0) positive
    exact (Nat.coprime_of_lt_prime nonzero (by omega) prime).symm

/-- The slots of a table hold the entries of these records, which the code finds. -/
structure Tabled (m : InternalMap) (slots : List Entry) (h2Prime : Nat) (records : List Record) : Prop where
  prime : slots.length.Prime
  positive : 0 < h2Prime
  le : h2Prime ≤ slots.length
  entries : ∀ e ∈ slots, e.segment ≠ 0 → ∃ r ∈ records, Refers m.segments m.hasValues e r
  indexed : Indexed (fun e => e.segment == 0) m.keyAt startOf (deltaOf h2Prime) slots (records.map Record.key)

namespace Tabled
variable {slots : List Entry} {h2Prime : Nat} {records : List Record}

theorem empty {size : Nat} (prime : size.Prime) (positive : 0 < h2Prime) (le : h2Prime ≤ size) :
    Tabled m (List.replicate size ⟨0,0⟩) h2Prime [] where
  prime := by rwa [List.length_replicate]
  positive := positive
  le := by rwa [List.length_replicate]
  entries := by
    intro e member used
    rw [List.eq_of_mem_replicate member] at used
    exact absurd rfl used
  indexed := Indexed.empty rfl size

theorem present (tabled : Tabled m slots h2Prime records) (valid : ∀ r ∈ records, r.Valid m.hasValues)
    (small : Small m.segments) {key : Bytes} (long : minKeyLength ≤ key.length) (member : key ∈ records.map Record.key) :
    ∃ slot e r, m.findSlotInSlice key slots h2Prime = some slot ∧ slots[slot]? = some e ∧ e.segment ≠ 0 ∧
      r ∈ records ∧ r.key = key ∧ Refers m.segments m.hasValues e r := by
  obtain ⟨slot,e,found,there,full,read⟩ := tabled.indexed.present member
  have used : e.segment ≠ 0 := by simpa using full
  obtain ⟨r,mem,refers⟩ := tabled.entries e (List.mem_of_getElem? there) used
  have same := keyAt_of_refers refers (valid r mem) small
  rw [read,Option.some.injEq] at same
  exact ⟨slot,e,r,by rw [findSlotInSlice_eq_search long,found],there,used,mem,same.symm,refers⟩

theorem absent (tabled : Tabled m slots h2Prime records) (fewer : records.length < slots.length) {key : Bytes}
    (long : minKeyLength ≤ key.length) (missing : key ∉ records.map Record.key) :
    ∃ slot e, m.findSlotInSlice key slots h2Prime = some slot ∧ slots[slot]? = some e ∧ e.segment = 0 := by
  obtain ⟨slot,e,found,there,empty⟩ := tabled.indexed.absent missing (by rwa [List.length_map])
    (coprime_deltaOf tabled.positive tabled.le tabled.prime key)
  exact ⟨slot,e,by rw [findSlotInSlice_eq_search long,found],there,by simpa using empty⟩

theorem insert (tabled : Tabled m slots h2Prime records) {r : Record} (valid : r.Valid m.hasValues)
    (small : Small m.segments) {slot : Nat} {old e : Entry} (found : m.findSlotInSlice r.key slots h2Prime = some slot)
    (there : slots[slot]? = some old) (empty : old.segment = 0) (refers : Refers m.segments m.hasValues e r) :
    Tabled m (slots.set slot e) h2Prime (records ++ [r]) where
  prime := by
    rw [List.length_set]
    exact tabled.prime
  positive := tabled.positive
  le := by
    rw [List.length_set]
    exact tabled.le
  entries := by
    intro e' member used
    rcases List.mem_or_eq_of_mem_set member with earlier | added
    · obtain ⟨r',mem,refers'⟩ := tabled.entries e' earlier used
      exact ⟨r',by simp [mem],refers'⟩
    · exact ⟨r,by simp,added ▸ refers⟩
  indexed := by
    obtain ⟨i,seg,before,after,number,_⟩ := id refers
    rw [findSlotInSlice_eq_search valid.long] at found
    rw [List.map_append]
    refine tabled.indexed.insert found there (by simp [empty]) (by simp [number]) ?_
    exact keyAt_of_refers refers valid small

/-- The keys of the entries of a table are the same when segments are added to. -/
theorem keyAt_extends (tabled : Tabled m slots h2Prime records) (valid : ∀ r ∈ records, r.Valid m.hasValues)
    (small : Small m.segments) {m' : InternalMap} (grows : Extends m.segments m'.segments) (small' : Small m'.segments)
    (kind : m'.hasValues = m.hasValues) :
    ∀ e ∈ slots, (e.segment == 0) = false → m'.keyAt e = m.keyAt e := by
  intro e member full
  obtain ⟨r,mem,refers⟩ := tabled.entries e member (by simpa using full)
  have again : Refers m'.segments m'.hasValues e r := kind ▸ refers.mono grows
  rw [keyAt_of_refers again (kind ▸ valid r mem) small',keyAt_of_refers refers (valid r mem) small]

theorem extend (tabled : Tabled m slots h2Prime records) (valid : ∀ r ∈ records, r.Valid m.hasValues)
    (small : Small m.segments) {m' : InternalMap} (grows : Extends m.segments m'.segments) (small' : Small m'.segments)
    (kind : m'.hasValues = m.hasValues) : Tabled m' slots h2Prime records where
  prime := tabled.prime
  positive := tabled.positive
  le := tabled.le
  entries := by
    intro e member used
    obtain ⟨r,mem,refers⟩ := tabled.entries e member used
    exact ⟨r,mem,kind ▸ refers.mono grows⟩
  indexed := tabled.indexed.congr (tabled.keyAt_extends valid small grows small' kind)

theorem find_extends (tabled : Tabled m slots h2Prime records) (valid : ∀ r ∈ records, r.Valid m.hasValues)
    (small : Small m.segments) {m' : InternalMap} (grows : Extends m.segments m'.segments) (small' : Small m'.segments)
    (kind : m'.hasValues = m.hasValues) {key : Bytes} (long : minKeyLength ≤ key.length) :
    m'.findSlotInSlice key slots h2Prime = m.findSlotInSlice key slots h2Prime := by
  rw [findSlotInSlice_eq_search long,findSlotInSlice_eq_search long]
  exact search_congr (tabled.keyAt_extends valid small grows small' kind) key

end Tabled

end InternalMap

end Vbe.Bigmap
