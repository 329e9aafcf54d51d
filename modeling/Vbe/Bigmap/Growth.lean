import Mathlib.Data.List.Forall2
import Vbe.Bigmap.Records

/-! Growing of the table: the records of all segments are read one after another and are found again in the new table. -/
namespace Vbe.Bigmap
open Vbe.Index (Bytes)
open Vbe.Library.Bytes Vbe.Library.Varints

/-- A segment holds these records and nothing else. -/
def Packs (hasValues : Bool) (seg : Segment) (part : List Record) : Prop :=
  seg.bytes = part.flatMap (Record.encode hasValues)

theorem length_le_encoded (hasValues : Bool) (part : List Record) :
    part.length ≤ (part.flatMap (Record.encode hasValues)).length := by
  induction part with
  | nil => exact Nat.le_refl 0
  | cons r rest ih =>
    have first := r.encode_pos hasValues
    simp only [List.flatMap_cons,List.length_append,List.length_cons]
    omega

theorem Packs.length_le {hasValues : Bool} {seg : Segment} {part : List Record} (packs : Packs hasValues seg part) :
    part.length ≤ seg.bytes.length := by
  rw [packs]
  exact length_le_encoded hasValues part

namespace InternalMap
variable {m : InternalMap} {newH2Prime : Nat}

/-- The loop reads a record and is left at the next one. -/
theorem reinsert_record {segNum : Nat} {seg : Segment} {before after : Bytes} {r : Record}
    (bytes : seg.bytes = before ++ (r.encode m.hasValues ++ after)) (valid : r.Valid m.hasValues) {newSlots : List Entry}
    {slot : Nat} (found : m.findSlotInSlice r.key newSlots newH2Prime = some slot) (fuel : Nat) :
    m.reinsert segNum seg newH2Prime (fuel + 1) before.length newSlots =
      m.reinsert segNum seg newH2Prime fuel (before ++ r.encode m.hasValues).length
        (newSlots.set slot ⟨uint32 (segNum + 1),uint32 before.length⟩) := by
  have first : seg.bytes[before.length]? = some (UInt8.ofNat r.key.length) := by
    simp [bytes,Record.encode]
  have key : seg.slice (before.length + 1) (before.length + 1 + r.key.length) = some r.key := by
    have split : seg.bytes = (before ++ [UInt8.ofNat r.key.length]) ++ (r.key ++
        ((if m.hasValues then putUvarint (UInt64.ofNat r.value.length) ++ r.value else []) ++ after)) := by
      rw [bytes]
      simp [Record.encode]
    exact seg.slice_part split (by simp) (by simp)
  rw [reinsert,first]
  simp only [valid.keyLen_ne,if_false,valid.keyLen,key,Option.bind_eq_bind,Option.bind_some]
  cases kind : m.hasValues with
  | false =>
    simp only [Bool.false_eq_true,if_false,Option.pure_def,Option.bind_some,found,List.length_append,
      Record.length_encode]
    congr 1
    omega
  | true =>
    have suffix : seg.suffixFrom (before.length + r.key.length + 1) =
        some (putUvarint (UInt64.ofNat r.value.length) ++ (r.value ++ after)) := by
      have split : seg.bytes = (before ++ UInt8.ofNat r.key.length :: r.key) ++
          (putUvarint (UInt64.ofNat r.value.length) ++ (r.value ++ after)) := by
        rw [bytes,kind]
        simp [Record.encode]
      refine seg.suffixFrom_part split ?_
      simp only [List.length_append,List.length_cons]
      omega
    simp only [if_true,suffix,Option.bind_some,uvarint_putUvarint,valid.valueLen,Option.pure_def,found,
      List.length_append,Record.length_encode]
    congr 1
    omega

theorem reinsert_spec (small : Small m.segments) (few : m.segments.length < 2 ^ 32) {segNum : Nat} {seg : Segment}
    (there : m.segments[segNum]? = some seg) (before : Bytes) {part records : List Record}
    (bytes : seg.bytes = before ++ part.flatMap (Record.encode m.hasValues)) (valid : ∀ r ∈ part, r.Valid m.hasValues)
    {newSlots : List Entry} (tabled : Tabled m newSlots newH2Prime records)
    (nodup : ((records ++ part).map Record.key).Nodup) (fewer : (records ++ part).length < newSlots.length) {fuel : Nat}
    (enough : part.length ≤ fuel) :
    ∃ filled, m.reinsert segNum seg newH2Prime fuel before.length newSlots = some filled ∧
      filled.length = newSlots.length ∧ Tabled m filled newH2Prime (records ++ part) := by
  induction part generalizing before records newSlots fuel with
  | nil =>
    refine ⟨newSlots,?_,rfl,by simpa using tabled⟩
    cases fuel with
    | zero => rfl
    | succ fuel =>
      have ended : seg.bytes[before.length]? = none := by simp [bytes]
      simp [reinsert,ended]
  | cons r part ih =>
    obtain ⟨fuel,rfl⟩ : ∃ less, fuel = less + 1 := ⟨fuel - 1,by simp only [List.length_cons] at enough; omega⟩
    rw [List.append_cons] at nodup fewer ⊢
    have own := valid r List.mem_cons_self
    have missing : r.key ∉ records.map Record.key := by
      rw [List.map_append,List.map_append] at nodup
      have front := nodup.sublist (List.sublist_append_left _ _)
      simpa using (List.nodup_append.mp front).2.2
    have room : records.length < newSlots.length := by
      simp only [List.length_append] at fewer
      omega
    obtain ⟨slot,old,found,vacant,empty⟩ := tabled.absent room own.long missing
    rw [List.flatMap_cons] at bytes
    rw [reinsert_record bytes own found fuel]
    have refers : Refers m.segments m.hasValues ⟨uint32 (segNum + 1),uint32 before.length⟩ r := by
      have bound := small seg (List.mem_of_getElem? there)
      have length := congrArg List.length bytes
      rw [List.length_append] at length
      have numbered : segNum < m.segments.length := (List.getElem?_eq_some_iff.mp there).1
      exact ⟨segNum,seg,before,_,uint32_of_lt (by omega),there,uint32_of_lt (by omega),bytes⟩
    have added := tabled.insert own small found vacant empty refers
    rw [← List.append_assoc] at bytes
    have rest := ih _ bytes (fun r' mem => valid r' (List.mem_cons_of_mem r mem)) added nodup
      (by rwa [List.length_set]) (by simpa using enough)
    rwa [List.length_set] at rest

/-- The loop of `growLocked` over the segments. -/
theorem growing_spec (small : Small m.segments) (few : m.segments.length < 2 ^ 32) (before : List Segment) {segs : List Segment}
    (whole : m.segments = before ++ segs) {parts : List (List Record)} {records : List Record}
    (packed : List.Forall₂ (Packs m.hasValues) segs parts) (valid : ∀ r ∈ parts.flatten, r.Valid m.hasValues)
    {newSlots : List Entry} (tabled : Tabled m newSlots newH2Prime records)
    (nodup : ((records ++ parts.flatten).map Record.key).Nodup)
    (fewer : (records ++ parts.flatten).length < newSlots.length) :
    ∃ filled, (segs.zipIdx before.length).foldlM
        (fun newSlots (seg,segNum) => m.reinsert segNum seg newH2Prime seg.bytes.length 0 newSlots) newSlots =
          some filled ∧
      filled.length = newSlots.length ∧ Tabled m filled newH2Prime (records ++ parts.flatten) := by
  induction packed generalizing before records newSlots with
  | nil => exact ⟨newSlots,rfl,rfl,by simpa using tabled⟩
  | @cons seg part segs parts first packed ih =>
    rw [List.flatten_cons,← List.append_assoc] at nodup fewer ⊢
    have there : m.segments[before.length]? = some seg := by simp [whole]
    have fewer' : (records ++ part).length < newSlots.length := by
      rw [List.length_append] at fewer
      omega
    obtain ⟨filled,done,length,full⟩ := reinsert_spec small few there [] first
      (fun r mem => valid r (by simp [mem])) tabled
      (nodup.sublist ((List.sublist_append_left _ _).map _)) fewer' first.length_le
    obtain ⟨last,rest,same,tabled'⟩ := ih (before ++ [seg]) (by simp [whole])
      (fun r mem => valid r (by rw [List.flatten_cons]; exact List.mem_append_right part mem)) full nodup
      (by rwa [length])
    refine ⟨last,?_,same.trans length,tabled'⟩
    rw [List.length_append,List.length_singleton] at rest
    rw [List.length_nil] at done
    simp only [List.zipIdx_cons,List.foldlM_cons,done,Option.bind_eq_bind,Option.bind_some]
    exact rest

/-- Every record is in the new table. -/
theorem growLocked_spec (small : Small m.segments) (few : m.segments.length < 2 ^ 32) {parts : List (List Record)}
    (packed : List.Forall₂ (Packs m.hasValues) m.segments parts) (valid : ∀ r ∈ parts.flatten, r.Valid m.hasValues)
    (nodup : (parts.flatten.map Record.key).Nodup) {newSize : Nat} (prime : newSize.Prime)
    (some_slots : 0 < m.slots.length) (bigger : m.slots.length ≤ newSize) (fewer : parts.flatten.length < newSize) :
    ∃ filled, m.growLocked newSize = some { m with h2Prime := m.slots.length,slots := filled } ∧
      filled.length = newSize ∧ Tabled m filled m.slots.length parts.flatten := by
  obtain ⟨filled,done,length,tabled⟩ := growing_spec small few [] rfl packed valid
    (Tabled.empty prime some_slots bigger) (by simpa using nodup) (by simpa using fewer)
  refine ⟨filled,?_,by rw [length,List.length_replicate],by simpa using tabled⟩
  rw [List.length_nil] at done
  simp only [growLocked,done,Option.bind_eq_bind,Option.bind_some,Option.pure_def]

end InternalMap

end Vbe.Bigmap
