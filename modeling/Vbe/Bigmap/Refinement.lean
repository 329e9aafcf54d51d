import Vbe.Bigmap.Growth

/-! What each call does to the records that have been put into a map. -/
namespace Vbe.Bigmap
open Vbe.Index (Bytes)
open Vbe.Library.Varints

@[simp] theorem Segment.bytes_append (os : Runtime) (s : Segment) (added : Bytes) :
    (s.append os added).bytes = s.bytes ++ added := by
  unfold Segment.append
  split <;> rfl

theorem Segment.cap_append (os : Runtime) {s : Segment} {added : Bytes} (fits : s.bytes.length + added.length ≤ s.cap) :
    (s.append os added).cap = s.cap := by
  unfold Segment.append
  rw [dif_pos fits]

theorem tableSizesPrimes_lt {i size newSize : Nat} (now : tableSizesPrimes[i]? = some size)
    (next : tableSizesPrimes[i + 1]? = some newSize) : size < newSize := by
  have sorted : tableSizesPrimes.Pairwise (· < ·) := by decide +kernel
  obtain ⟨inside,rfl⟩ := List.getElem?_eq_some_iff.mp now
  obtain ⟨inside',rfl⟩ := List.getElem?_eq_some_iff.mp next
  exact List.pairwise_iff_getElem.mp sorted i (i + 1) inside inside' (Nat.lt_succ_self i)

namespace InternalMap
variable (os : Runtime) {m : InternalMap} {records : List Record}

/-- What holds of a map into which these records have been put, in this order. -/
structure Holds (m : InternalMap) (records : List Record) : Prop where
  load : m.opts.LoadFactorPercentage ≤ 99
  valid : ∀ r ∈ records, r.Valid m.hasValues
  nodup : (records.map Record.key).Nodup
  packed : ∃ parts, List.Forall₂ (Packs m.hasValues) m.segments parts ∧ parts.flatten = records
  started : m.segments ≠ []
  small : Small m.segments
  few : m.segments.length < 2 ^ 32
  table : tableSizesPrimes[m.tableSizeIndex]? = some m.slots.length
  counted : m.count = records.length
  fewer : records.length < m.slots.length
  tabled : Tabled m m.slots m.h2Prime records

/-- A new key has room: no product of the table's size wraps, where the table is full there is a larger prime size, and
the segment of its record has a number and a length of 32 bits. -/
structure Fits (m : InternalMap) (key value : Bytes) : Prop where
  product : m.slots.length * m.opts.LoadFactorPercentage < 2 ^ 63
  table : m.Full → ∃ newSize, tableSizesPrimes[m.tableSizeIndex + 1]? = some newSize ∧ newSize.Prime
  number : ∀ room, m.roomFor os key value = some room → room.segments.length < 2 ^ 32
  length : ∀ room current, m.roomFor os key value = some room → room.segments.getLast? = some current →
    current.bytes.length + (Record.encode m.hasValues ⟨key,value⟩).length < 2 ^ 32

theorem full_iff (product : m.slots.length * m.opts.LoadFactorPercentage < 2 ^ 63) :
    m.Full ↔ m.slots.length * m.opts.LoadFactorPercentage / 100 ≤ m.count := by
  unfold Full
  rw [← Int.natCast_mul]
  generalize m.slots.length * m.opts.LoadFactorPercentage = slots at product ⊢
  rw [Int.bmod_eq_of_le (by omega) (by omega),Int.tdiv_eq_ediv_of_nonneg (Int.natCast_nonneg slots)]
  omega

theorem Holds.Contains (holds : m.Holds records) {key : Bytes} (long : minKeyLength ≤ key.length) :
    m.Contains key = some (decide (key ∈ records.map Record.key)) := by
  by_cases member : key ∈ records.map Record.key
  · obtain ⟨slot,e,r,found,there,used,_⟩ := holds.tabled.present holds.valid holds.small long member
    simp [InternalMap.Contains,findSlot,found,there,used,member]
  · obtain ⟨slot,e,found,there,empty⟩ := holds.tabled.absent holds.fewer long member
    simp [InternalMap.Contains,findSlot,found,there,empty,member]

/-- What is read at an entry of a record. -/
theorem read_of_refers {e : Entry} {r : Record} (refers : Refers m.segments m.hasValues e r)
    (valid : r.Valid m.hasValues) (small : Small m.segments) (kind : m.hasValues = true) :
    ∃ data, m.segments[e.segment - 1]? = some data ∧ ∃ keyLen : UInt8, data.bytes[e.offset]? = some keyLen ∧
      ∃ suffix, data.suffixFrom (uint32 (e.offset + keyLen.toNat + 1)) = some suffix ∧
        ∃ vlen vlenLen, uvarint suffix = (vlen,vlenLen) ∧
          data.slice (((uint32 (e.offset + keyLen.toNat + 1) : Nat) + vlenLen) % 2 ^ 32).toNat
            (uint32 ((((uint32 (e.offset + keyLen.toNat + 1) : Nat) + vlenLen) % 2 ^ 32).toNat + uint32 vlen)) =
              some r.value := by
  obtain ⟨i,seg,before,after,number,there,offset,bytes⟩ := refers
  have bound := small seg (List.mem_of_getElem? there)
  have length := congrArg List.length bytes
  rw [List.length_append,List.length_append,Record.length_encode,if_pos kind] at length
  have split : seg.bytes = (before ++ UInt8.ofNat r.key.length :: r.key) ++
      (putUvarint (UInt64.ofNat r.value.length) ++ (r.value ++ after)) := by
    rw [bytes,kind]
    simp [Record.encode]
  have position : uint32 (e.offset + r.key.length + 1) = (before ++ UInt8.ofNat r.key.length :: r.key).length := by
    rw [uint32_of_lt (by omega),offset,List.length_append,List.length_cons]
    omega
  refine ⟨seg,by rw [number]; exact there,UInt8.ofNat r.key.length,by simp [bytes,offset,Record.encode],?_⟩
  rw [valid.keyLen]
  refine ⟨_,seg.suffixFrom_part split position,_,_,uvarint_putUvarint _ _,?_⟩
  have start : (((uint32 (e.offset + r.key.length + 1) : Nat) +
      ((putUvarint (UInt64.ofNat r.value.length)).length : Int)) % 2 ^ 32).toNat =
        ((before ++ UInt8.ofNat r.key.length :: r.key) ++ putUvarint (UInt64.ofNat r.value.length)).length := by
    rw [position]
    simp only [List.length_append,List.length_cons]
    omega
  rw [start,valid.valueLen,uint32_of_lt (n := r.value.length) (by omega)]
  rw [← List.append_assoc] at split
  refine seg.slice_part split rfl ?_
  rw [uint32_of_lt]
  simp only [List.length_append,List.length_cons]
  omega

/-- The value that a list of records has for a key. -/
def lookup (records : List Record) (key : Bytes) : Option Bytes :=
  (records.find? fun r => r.key = key).map Record.value

theorem lookup_mem (nodup : (records.map Record.key).Nodup) {r : Record} (member : r ∈ records) :
    lookup records r.key = some r.value := by
  induction records with
  | nil => cases member
  | cons first records ih =>
    rw [List.map_cons,List.nodup_cons] at nodup
    rcases List.mem_cons.mp member with rfl | later
    · simp [lookup]
    · have differs : first.key ≠ r.key := by
        intro same
        exact nodup.1 (same ▸ List.mem_map_of_mem later)
      simpa [lookup,List.find?_cons,differs] using ih nodup.2 later

theorem lookup_none {key : Bytes} (missing : key ∉ records.map Record.key) : lookup records key = none := by
  unfold lookup
  rw [Option.map_eq_none_iff,List.find?_eq_none]
  intro r member same
  exact missing (by simpa using ⟨r,member,by simpa using same⟩)

theorem Holds.Get (holds : m.Holds records) {key : Bytes} (long : minKeyLength ≤ key.length) (buf : Bytes) :
    m.Get buf key = some (match lookup records key with
      | some value => (if m.hasValues then buf ++ value else [],true)
      | none => ([],false)) := by
  by_cases member : key ∈ records.map Record.key
  · obtain ⟨slot,e,r,found,there,used,mem,rfl,refers⟩ := holds.tabled.present holds.valid holds.small long member
    rw [lookup_mem holds.nodup mem]
    cases kind : m.hasValues with
    | false => simp [InternalMap.Get,findSlot,found,there,used,kind]
    | true =>
      obtain ⟨data,segment,keyLen,first,suffix,from_key,vlen,vlenLen,read,value⟩ :=
        read_of_refers refers (holds.valid r mem) holds.small kind
      simp [InternalMap.Get,findSlot,found,there,used,kind,segment,first,from_key,read,value,-Int.reducePow]
  · obtain ⟨slot,e,found,there,empty⟩ := holds.tabled.absent holds.fewer long member
    simp [InternalMap.Get,findSlot,found,there,empty,lookup_none member]

theorem roomFor_segments {m' : InternalMap} (segments : m'.segments = m.segments) (opts : m'.opts = m.opts)
    (key value : Bytes) :
    (m'.roomFor os key value).map InternalMap.segments = (m.roomFor os key value).map InternalMap.segments := by
  unfold roomFor newSegment
  rw [segments,opts]
  cases m.segments.getLast? with
  | none => rfl
  | some current =>
    simp only [Option.bind_eq_bind,Option.bind_some]
    split
    next => rfl
    next => simpa using segments

/-- The table has a free slot for a new key, and another one. -/
theorem Holds.slotFor (holds : m.Holds records) {key : Bytes} (long : minKeyLength ≤ key.length)
    (missing : key ∉ records.map Record.key) {slot : Nat} {e : Entry} (found : m.findSlot key = some slot)
    (there : m.slots[slot]? = some e) (empty : e.segment = 0)
    (product : m.slots.length * m.opts.LoadFactorPercentage < 2 ^ 63)
    (table : m.Full → ∃ newSize, tableSizesPrimes[m.tableSizeIndex + 1]? = some newSize ∧ newSize.Prime) :
    ∃ m' slot' e', m.slotFor key slot = some (m',slot') ∧ m'.Holds records ∧ m'.segments = m.segments ∧
      m'.opts = m.opts ∧ m'.hasValues = m.hasValues ∧ m'.findSlot key = some slot' ∧ m'.slots[slot']? = some e' ∧
      e'.segment = 0 ∧ records.length + 1 < m'.slots.length := by
  by_cases full : m.Full
  · obtain ⟨newSize,next,prime⟩ := table full
    obtain ⟨parts,packed,flat⟩ := holds.packed
    have bigger := tableSizesPrimes_lt holds.table next
    have fewer := holds.fewer
    have positive : 0 < m.slots.length := by omega
    subst flat
    obtain ⟨filled,grown,length,tabled⟩ := growLocked_spec (m := { m with tableSizeIndex := m.tableSizeIndex + 1 })
      holds.small holds.few packed holds.valid holds.nodup prime positive bigger.le (by omega)
    let m' : InternalMap :=
      { m with tableSizeIndex := m.tableSizeIndex + 1,h2Prime := m.slots.length,slots := filled }
    have tabled' : Tabled m' m'.slots m'.h2Prime parts.flatten :=
      ⟨tabled.prime,tabled.positive,tabled.le,tabled.entries,tabled.indexed⟩
    have holds' : m'.Holds parts.flatten := ⟨holds.load,holds.valid,holds.nodup,⟨parts,packed,rfl⟩,holds.started,
      holds.small,holds.few,by rw [next,length],holds.counted,by rw [length]; omega,tabled'⟩
    obtain ⟨slot',e',found',there',empty'⟩ := tabled'.absent holds'.fewer long missing
    refine ⟨m',slot',e',?_,holds',rfl,rfl,rfl,found',there',empty',by rw [length]; omega⟩
    have search : m'.findSlot key = some slot' := found'
    simp only [InternalMap.slotFor,if_pos full,next,Option.bind_eq_bind,Option.bind_some,grown,Option.pure_def]
    rw [show InternalMap.findSlot _ key = some slot' from search]
    rfl
  · have load := holds.load
    have below : records.length < m.slots.length * m.opts.LoadFactorPercentage / 100 := by
      rw [full_iff product,holds.counted] at full
      omega
    have scaled : m.slots.length * m.opts.LoadFactorPercentage ≤ m.slots.length * 99 := Nat.mul_le_mul_left _ load
    exact ⟨m,slot,e,by simp [InternalMap.slotFor,full],holds,rfl,rfl,rfl,found,there,empty,by omega⟩

theorem extends_append (segments more : List Segment) : Extends segments (segments ++ more) := by
  intro i seg there
  have inside : i < segments.length := (List.getElem?_eq_some_iff.mp there).1
  exact ⟨seg,[],by rw [List.getElem?_append_left inside,there],by simp⟩

theorem extends_last (before : List Segment) {current current' : Segment} {more : Bytes}
    (added : current'.bytes = current.bytes ++ more) : Extends (before ++ [current]) (before ++ [current']) := by
  intro i seg there
  by_cases earlier : i < before.length
  · rw [List.getElem?_append_left earlier] at there
    exact ⟨seg,[],by rw [List.getElem?_append_left earlier,there],by simp⟩
  · have last : i = before.length := by
      have inside := (List.getElem?_eq_some_iff.mp there).1
      rw [List.length_append,List.length_singleton] at inside
      omega
    subst last
    obtain rfl : current = seg := by simpa using there
    exact ⟨current',more,by simp,added⟩

/-- The last segment, or a new one, is that of a new record. -/
theorem Holds.roomFor (holds : m.Holds records) (key value : Bytes)
    (number : ∀ room, m.roomFor os key value = some room → room.segments.length < 2 ^ 32) :
    ∃ room before current, m.roomFor os key value = some room ∧ room.Holds records ∧
      room.segments = before ++ [current] ∧ room.hasValues = m.hasValues ∧ room.opts = m.opts ∧
      room.slots = m.slots ∧ (minKeyLength ≤ key.length → room.findSlot key = m.findSlot key) := by
  have last := List.getLast?_eq_some_getLast holds.started
  have split := List.dropLast_append_getLast holds.started
  by_cases short : (m.segments.getLast holds.started).bytes.length + payloadLength key value >
      (m.segments.getLast holds.started).cap
  · let room : InternalMap := { m with segments := m.segments ++ [m.newSegment os] }
    have made : m.roomFor os key value = some room := by simp [InternalMap.roomFor,last,short,room]
    have grows : Extends m.segments room.segments := extends_append m.segments _
    have new : (m.newSegment os).bytes = [] := by
      unfold newSegment
      split <;> rfl
    have small : Small room.segments := by
      intro seg member
      rcases List.mem_append.mp member with earlier | added
      · exact holds.small seg earlier
      · rw [List.mem_singleton.mp added,new]
        decide
    obtain ⟨parts,packed,flat⟩ := holds.packed
    have tabled : Tabled room m.slots m.h2Prime records := holds.tabled.extend holds.valid holds.small grows small rfl
    have holds' : room.Holds records := ⟨holds.load,holds.valid,holds.nodup,
      ⟨parts ++ [[]],List.rel_append packed (List.Forall₂.cons new List.Forall₂.nil),by simpa using flat⟩,
      by simp [room],small,number room made,holds.table,holds.counted,holds.fewer,tabled⟩
    exact ⟨room,m.segments,m.newSegment os,made,holds',rfl,rfl,rfl,rfl,
      holds.tabled.find_extends holds.valid holds.small grows small rfl⟩
  · exact ⟨m,m.segments.dropLast,_,by simp [InternalMap.roomFor,last,short],holds,split.symm,rfl,rfl,rfl,fun _ => rfl⟩

/-- The last segment after a record has been added to it. -/
theorem store_record (before : List Segment) {current : Segment} (segments : m.segments = before ++ [current])
    {r : Record} (valid : r.Valid m.hasValues) (slot : Nat) :
    ∃ current', current'.bytes = current.bytes ++ r.encode m.hasValues ∧
      (current.bytes.length + (r.encode m.hasValues).length ≤ current.cap → current'.cap = current.cap) ∧
      m.store os slot r.key r.value =
        some { m with segments := before ++ [current'],count := m.count + 1,
                      slots := m.slots.set slot ⟨uint32 m.segments.length,uint32 current.bytes.length⟩ } := by
  have size : (putUvarint (UInt64.ofNat r.value.length)).length ≤ 5 := by
    have small := valid.value
    refine putUvarintFrom_length_le MaxVarintLen64 4 ?_
    rw [valid.valueLen]
    omega
  have last : m.segments.getLast? = some current := by rw [segments,List.getLast?_concat]
  have fitting : ¬(putUvarint (UInt64.ofNat r.value.length)).length > MaxVarintLen32 := by
    unfold MaxVarintLen32
    omega
  have replaced : ∀ seg : Segment, m.segments.set (m.segments.length - 1) seg = before ++ [seg] := by
    intro seg
    simp [segments]
  cases kind : m.hasValues with
  | false =>
    refine ⟨(current.append os [UInt8.ofNat r.key.length]).append os r.key,by simp [Record.encode],?_,?_⟩
    · intro fits
      simp only [Record.length_encode,Bool.false_eq_true,if_false] at fits
      have first : (current.append os [UInt8.ofNat r.key.length]).cap = current.cap :=
        current.cap_append os (by simp; omega)
      rw [Segment.cap_append os (by rw [first]; simp; omega),first]
    simp [InternalMap.store,last,kind,replaced]
  | true =>
    refine ⟨(((current.append os [UInt8.ofNat r.key.length]).append os r.key).append os
      (putUvarint (UInt64.ofNat r.value.length))).append os r.value,by simp [Record.encode],?_,?_⟩
    · intro fits
      simp only [Record.length_encode,if_true] at fits
      have first : (current.append os [UInt8.ofNat r.key.length]).cap = current.cap :=
        current.cap_append os (by simp; omega)
      have second : ((current.append os [UInt8.ofNat r.key.length]).append os r.key).cap = current.cap := by
        rw [Segment.cap_append os (by rw [first]; simp; omega),first]
      have third : (((current.append os [UInt8.ofNat r.key.length]).append os r.key).append os
          (putUvarint (UInt64.ofNat r.value.length))).cap = current.cap := by
        rw [Segment.cap_append os (by rw [second]; simp; omega),second]
      rw [Segment.cap_append os (by rw [third]; simp; omega),third]
    simp only [InternalMap.store,last,Option.bind_eq_bind,Option.bind_some,fitting,kind,and_false,if_false,
      if_true,replaced,Option.pure_def]

theorem Holds.store (holds : m.Holds records) {before : List Segment} {current : Segment}
    (segments : m.segments = before ++ [current]) {r : Record} (valid : r.Valid m.hasValues)
    (missing : r.key ∉ records.map Record.key) {slot : Nat} {e : Entry} (found : m.findSlot r.key = some slot)
    (there : m.slots[slot]? = some e) (empty : e.segment = 0) (fewer : records.length + 1 < m.slots.length)
    (length : current.bytes.length + (r.encode m.hasValues).length < 2 ^ 32) :
    ∃ m', m.store os slot r.key r.value = some m' ∧ m'.Holds (records ++ [r]) ∧ m'.hasValues = m.hasValues ∧
      m'.opts = m.opts := by
  obtain ⟨current',bytes,_,stored⟩ := store_record os before segments valid slot
  let m' : InternalMap := { m with segments := before ++ [current'],count := m.count + 1,
                                   slots := m.slots.set slot ⟨uint32 m.segments.length,uint32 current.bytes.length⟩ }
  have grows : Extends m.segments m'.segments := by
    rw [segments]
    exact extends_last before bytes
  have few := holds.few
  have count : m.segments.length = before.length + 1 := by simp [segments]
  have small : Small m'.segments := by
    intro seg member
    rcases List.mem_append.mp member with earlier | added
    · exact holds.small seg (by simp [segments,earlier])
    · rw [List.mem_singleton.mp added,bytes,List.length_append]
      exact length
  have valid' : ∀ r' ∈ records ++ [r], r'.Valid m.hasValues := by
    intro r' member
    rcases List.mem_append.mp member with earlier | added
    · exact holds.valid r' earlier
    · exact List.mem_singleton.mp added ▸ valid
  have nodup : ((records ++ [r]).map Record.key).Nodup := by
    rw [List.map_append,List.map_singleton,List.nodup_append]
    refine ⟨holds.nodup,List.nodup_singleton _,?_⟩
    intro k member k' single same
    exact missing (List.mem_singleton.mp single ▸ same ▸ member)
  have packed : ∃ parts, List.Forall₂ (Packs m.hasValues) m'.segments parts ∧ parts.flatten = records ++ [r] := by
    obtain ⟨parts,packed,flat⟩ := holds.packed
    rw [segments] at packed
    obtain ⟨front,back,first,last,rfl⟩ : ∃ front back, List.Forall₂ (Packs m.hasValues) before front ∧
        List.Forall₂ (Packs m.hasValues) [current] back ∧ parts = front ++ back := by
      refine ⟨parts.take before.length,parts.drop before.length,?_,?_,(List.take_append_drop _ _).symm⟩
      · simpa using List.forall₂_take before.length packed
      · simpa using List.forall₂_drop before.length packed
    cases last with
    | @cons _ part _ _ packs nothing =>
      cases nothing
      have more : Packs m.hasValues current' (part ++ [r]) := by
        have old : current.bytes = part.flatMap (Record.encode m.hasValues) := packs
        have new : current'.bytes = (part ++ [r]).flatMap (Record.encode m.hasValues) := by
          rw [bytes,old,List.flatMap_append,List.flatMap_singleton]
        exact new
      refine ⟨front ++ [part ++ [r]],List.rel_append first (List.Forall₂.cons more List.Forall₂.nil),?_⟩
      rw [← flat]
      simp
  have refers : Refers m'.segments m'.hasValues ⟨uint32 m.segments.length,uint32 current.bytes.length⟩ r := by
    refine ⟨before.length,current',current.bytes,[],?_,by simp [m'],?_,by simpa using bytes⟩
    · rw [uint32_of_lt few,count]
    · exact uint32_of_lt (by omega)
  have extended : Tabled m' m.slots m.h2Prime records := holds.tabled.extend holds.valid holds.small grows small rfl
  have again : m'.findSlotInSlice r.key m.slots m.h2Prime = some slot := by
    have search := holds.tabled.find_extends holds.valid holds.small grows small rfl valid.long
    rw [search]
    exact found
  have tabled := extended.insert valid small again there empty refers
  refine ⟨m',stored,?_,rfl,rfl⟩
  exact ⟨holds.load,valid',nodup,packed,by simp [m'],small,by simpa [m',count] using few,
    by simpa [m'] using holds.table,by simp [m',holds.counted],by simpa [m'] using fewer,tabled⟩

theorem Holds.PutIfAbsent_present (holds : m.Holds records) {r : Record} (valid : r.Valid m.hasValues)
    (member : r.key ∈ records.map Record.key) : m.PutIfAbsent os r.key r.value = some (m,false) := by
  obtain ⟨slot,e,_,found,there,used,_⟩ := holds.tabled.present holds.valid holds.small valid.long member
  have plain : ¬((!m.hasValues) = true ∧ r.value.length > 0) := by
    rintro ⟨kind,some_value⟩
    simp [valid.none (by simpa using kind)] at some_value
  rw [InternalMap.PutIfAbsent,if_neg (Nat.not_lt.mpr valid.long),if_neg (Nat.not_lt.mpr valid.short),if_neg plain]
  simp [findSlot,found,there,used]

theorem Holds.PutIfAbsent_absent (holds : m.Holds records) {r : Record} (valid : r.Valid m.hasValues)
    (missing : r.key ∉ records.map Record.key) (fits : m.Fits os r.key r.value) :
    ∃ m', m.PutIfAbsent os r.key r.value = some (m',true) ∧ m'.Holds (records ++ [r]) ∧
      m'.hasValues = m.hasValues := by
  obtain ⟨slot,e,found,there,empty⟩ := holds.tabled.absent holds.fewer valid.long missing
  obtain ⟨grown,slot',e',slotted,holds',segments,opts,kind,found',there',empty',fewer⟩ :=
    holds.slotFor valid.long missing found there empty fits.product fits.table
  have same := roomFor_segments os segments opts r.key r.value
  have number : ∀ room, grown.roomFor os r.key r.value = some room → room.segments.length < 2 ^ 32 := by
    intro room made
    rw [made] at same
    obtain ⟨old,made',equal⟩ := Option.map_eq_some_iff.mp same.symm
    rw [← equal]
    exact fits.number old made'
  obtain ⟨room,before,current,made,holds'',split,kind',_,slots,search⟩ := holds'.roomFor os r.key r.value number
  have length : current.bytes.length + (r.encode room.hasValues).length < 2 ^ 32 := by
    rw [made] at same
    obtain ⟨old,made',equal⟩ := Option.map_eq_some_iff.mp same.symm
    rw [kind',kind]
    exact fits.length old current made' (by rw [equal,split,List.getLast?_concat])
  obtain ⟨m',stored,done,kind'',_⟩ := holds''.store os split (by rw [kind',kind]; exact valid) missing
    (by rw [search valid.long]; exact found') (by rw [slots]; exact there') empty' (by rw [slots]; exact fewer) length
  have plain : ¬((!m.hasValues) = true ∧ r.value.length > 0) := by
    rintro ⟨novalues,some_value⟩
    simp [valid.none (by simpa using novalues)] at some_value
  refine ⟨m',?_,done,by rw [kind'',kind',kind]⟩
  have find : m.findSlot r.key = some slot := found
  rw [InternalMap.PutIfAbsent,if_neg (Nat.not_lt.mpr valid.long),if_neg (Nat.not_lt.mpr valid.short),if_neg plain]
  simp [find,there,empty,slotted,made,stored]

/-- A new map holds nothing. -/
theorem new_holds {hasValues : Bool} {opts : Option Options} (new : newInternalMapWithOptions os hasValues opts = some m)
    (load : (opts.getD Options.zero).LoadFactorPercentage ≤ 99) (prime : m.slots.length.Prime) :
    m.Holds [] ∧ m.hasValues = hasValues := by
  unfold newInternalMapWithOptions at new
  simp only [Option.bind_eq_bind] at new
  split at new
  next => contradiction
  next started =>
    obtain ⟨size,now,new⟩ := Option.bind_eq_some_iff.mp new
    obtain ⟨h2Prime,earlier,new⟩ := Option.bind_eq_some_iff.mp new
    obtain rfl := Option.some.inj new
    have before : h2Prime < size := by
      refine tableSizesPrimes_lt earlier ?_
      rwa [Nat.sub_add_cancel (by omega)]
    have positive : 0 < h2Prime := by
      have all : ∀ p ∈ tableSizesPrimes, 0 < p := by decide +kernel
      exact all h2Prime (List.mem_of_getElem? earlier)
    rw [List.length_replicate] at prime
    have empty : ∀ m : InternalMap, (m.newSegment os).bytes = [] := by
      intro m
      unfold newSegment
      split <;> rfl
    refine ⟨⟨?_,by simp,by simp,⟨[[]],List.Forall₂.cons (empty _) List.Forall₂.nil,rfl⟩,by simp,?_,by simp,
      by simpa using now,rfl,by rw [List.length_replicate]; exact prime.pos,
      Tabled.empty prime positive before.le⟩,rfl⟩
    · simp only [Options.withDefaults,defaultLoadFactorPercentage]
      split
      next => decide
      next => exact load
    · intro seg member
      rw [List.mem_singleton.mp member,empty]
      decide

end InternalMap

end Vbe.Bigmap
