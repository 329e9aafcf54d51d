import Mathlib.Tactic.NormNum.Prime
import Vbe.Bigmap.Refinement
import Vbe.Library.Runs

/-! The map keeps what has been put into it for good, as a finite map does, in every run in which the positions of
records fit into 32 bits. -/
namespace Vbe.Bigmap
open Vbe.Index (Bytes)
open Vbe.Library Vbe.Library.Varints InternalMap

inductive Call
  | PutIfAbsent (key value : Bytes)
  | Get (buf key : Bytes)
  | Contains (key : Bytes)

inductive Answer
  | added (ok : Bool)
  | value (value : Bytes) (ok : Bool)
  | contained (ok : Bool)
deriving DecidableEq

/-- The calls that the package is for: keys of 4 to 255 bytes, and values only in maps that have values. -/
def Call.Valid (hasValues : Bool) : Call → Prop
  | PutIfAbsent key value => Record.Valid hasValues ⟨key,value⟩
  | Get _ key => minKeyLength ≤ key.length ∧ key.length ≤ maxKeyLength
  | Contains key => minKeyLength ≤ key.length ∧ key.length ≤ maxKeyLength

def InternalMap.call (os : Runtime) (m : InternalMap) : Call → Option (InternalMap × Answer)
  | .PutIfAbsent key value => (m.PutIfAbsent os key value).map fun (m,ok) => (m,.added ok)
  | .Get buf key => (m.Get buf key).map fun (value,ok) => (m,.value value ok)
  | .Contains key => (m.Contains key).map fun ok => (m,.contained ok)

def InternalMap.calls (os : Runtime) : InternalMap → List Call → Option (InternalMap × List Answer)
  | m, [] => some (m,[])
  | m, call :: rest => do
    let (m,answer) ← m.call os call
    let (m,answers) ← m.calls os rest
    return (m,answer :: answers)

/-- What the package is for: a map that keeps the first value of each key. Maps without values answer with none. -/
abbrev FiniteMap := Bytes → Option Bytes

def FiniteMap.call (hasValues : Bool) (f : FiniteMap) : Call → FiniteMap × Answer
  | .PutIfAbsent key value =>
    match f key with
    | none => (Function.update f key (some value),.added true)
    | some _ => (f,.added false)
  | .Get buf key =>
    match f key with
    | some value => (f,.value (if hasValues then buf ++ value else []) true)
    | none => (f,.value [] false)
  | .Contains key => (f,.contained (f key).isSome)

def FiniteMap.calls (hasValues : Bool) : FiniteMap → List Call → FiniteMap × List Answer
  | f, [] => (f,[])
  | f, call :: rest =>
    let (f,answer) := f.call hasValues call
    let (f,answers) := FiniteMap.calls hasValues f rest
    (f,answer :: answers)

/-- A key that is put for the first time has room. -/
def Roomy (os : Runtime) (m : InternalMap) : Call → Prop
  | .PutIfAbsent key value => m.Contains key = some false → m.Fits os key value
  | _ => True

theorem lookup_append {records : List Record} {r : Record} (missing : r.key ∉ records.map Record.key) :
    lookup (records ++ [r]) = Function.update (lookup records) r.key (some r.value) := by
  funext key
  by_cases same : key = r.key
  · subst same
    have nothing : records.find? (fun r' => r'.key = r.key) = none := by
      rw [List.find?_eq_none]
      intro r' member equal
      exact missing (by simpa using ⟨r',member,by simpa using equal⟩)
    simp [lookup,List.find?_append,nothing]
  · have other : ¬r.key = key := fun equal => same equal.symm
    rw [Function.update_of_ne same]
    simp [lookup,List.find?_append,other]

theorem isSome_lookup (records : List Record) (key : Bytes) :
    (lookup records key).isSome = decide (key ∈ records.map Record.key) := by
  by_cases member : key ∈ records.map Record.key
  · rw [decide_eq_true member,lookup,Option.isSome_map,List.find?_isSome]
    simpa using member
  · simp [lookup_none member,member]

variable {os : Runtime} {m : InternalMap} {records : List Record}

theorem calls_cons {m' m'' : InternalMap} {call : Call} {answer : Answer} {rest : List Call} {answers : List Answer}
    (called : m.call os call = some (m',answer)) (later : m'.calls os rest = some (m'',answers)) :
    m.calls os (call :: rest) = some (m'',answer :: answers) := by
  simp [InternalMap.calls,called,later]

/-- One call does to a map what it does to the finite map of its records. -/
theorem call_refines (holds : m.Holds records) {call : Call} (valid : call.Valid m.hasValues) (room : Roomy os m call) :
    ∃ m' records', m.call os call = some (m',(FiniteMap.call m.hasValues (lookup records) call).2) ∧ m'.Holds records' ∧
      m'.hasValues = m.hasValues ∧ lookup records' = (FiniteMap.call m.hasValues (lookup records) call).1 := by
  cases call with
  | PutIfAbsent key value =>
    by_cases member : key ∈ records.map Record.key
    · obtain ⟨old,found⟩ := Option.isSome_iff_exists.mp ((isSome_lookup records key).trans (decide_eq_true member))
      have put := holds.PutIfAbsent_present os valid member
      refine ⟨m,records,?_,holds,rfl,?_⟩
      · simp only [InternalMap.call,put,Option.map_some,FiniteMap.call,found]
      · simp only [FiniteMap.call,found]
    · have unknown : m.Contains key = some false := by rw [holds.Contains valid.long,decide_eq_false member]
      obtain ⟨m',put,holds',kind⟩ := holds.PutIfAbsent_absent os valid member (room unknown)
      refine ⟨m',records ++ [⟨key,value⟩],?_,holds',kind,?_⟩
      · simp only [InternalMap.call,put,Option.map_some,FiniteMap.call,lookup_none member]
      · simp only [FiniteMap.call,lookup_none member,lookup_append (r := ⟨key,value⟩) member]
  | Get buf key =>
    refine ⟨m,records,?_,holds,rfl,?_⟩
    · cases found : lookup records key <;>
        simp only [InternalMap.call,holds.Get valid.1,Option.map_some,FiniteMap.call,found]
    · cases found : lookup records key <;> simp only [FiniteMap.call,found]
  | Contains key =>
    refine ⟨m,records,?_,holds,rfl,rfl⟩
    simp only [InternalMap.call,holds.Contains valid.1,Option.map_some,FiniteMap.call,isSome_lookup]

/-- The map that a call leaves. -/
def next (os : Runtime) (m : InternalMap) (call : Call) : Option InternalMap := (m.call os call).map Prod.fst

theorem calls_refine (holds : m.Holds records) {calls : List Call} (valid : ∀ call ∈ calls, call.Valid m.hasValues)
    (room : Runs.Meets (next os) (Roomy os) m calls) :
    ∃ m' records', m.calls os calls = some (m',(FiniteMap.calls m.hasValues (lookup records) calls).2) ∧
      m'.Holds records' ∧ lookup records' = (FiniteMap.calls m.hasValues (lookup records) calls).1 := by
  induction calls generalizing m records with
  | nil => exact ⟨m,records,rfl,holds,rfl⟩
  | cons call rest ih =>
    obtain ⟨m',records',called,holds',kind,same⟩ := call_refines holds (valid call List.mem_cons_self) room.1
    have later : ∀ call ∈ rest, call.Valid m'.hasValues := by
      intro call member
      rw [kind]
      exact valid call (List.mem_cons_of_mem _ member)
    obtain ⟨last,records'',run,holds'',final⟩ := ih holds' later (room.2 m' (by rw [next,called,Option.map_some]))
    rw [kind,same] at run final
    exact ⟨last,records'',calls_cons called run,holds'',final⟩

/-- A new map answers all calls as a finite map does, and holds one record for each of its keys. -/
theorem InternalMap.calls_new {hasValues : Bool} {opts : Option Options}
    (new : newInternalMapWithOptions os hasValues opts = some m)
    (load : (opts.getD Options.zero).LoadFactorPercentage ≤ 99) (prime : m.slots.length.Prime) {calls : List Call}
    (valid : ∀ call ∈ calls, call.Valid hasValues) (room : Runs.Meets (next os) (Roomy os) m calls) :
    ∃ m' records, m.calls os calls = some (m',(FiniteMap.calls hasValues (fun _ => none) calls).2) ∧
      m'.Holds records ∧ (records.map Record.key).Nodup ∧
      lookup records = (FiniteMap.calls hasValues (fun _ => none) calls).1 := by
  obtain ⟨holds,rfl⟩ := new_holds os new load prime
  obtain ⟨m',records,run,holds',final⟩ := calls_refine holds valid room
  exact ⟨m',records,run,holds',holds'.nodup,final⟩

def directly : Runtime := ⟨fun _ => true,fun _ needed => needed,fun _ needed => Nat.le_refl needed⟩

def littleMap : InternalMap := ⟨true,⟨75,8,64,64,9⟩,1,[Segment.make 64],List.replicate 457 ⟨0,0⟩,0,197⟩

def firstCall : Call := .PutIfAbsent [0,0,0,1] [7]

theorem littleMap_fits : littleMap.Fits directly [0,0,0,1] [7] where
  product := by decide +kernel
  table := by
    intro full
    exact absurd full (by decide +kernel)
  number := by
    intro room made
    obtain rfl : littleMap = room := Option.some.inj made
    decide
  length := by
    intro room current made last
    obtain rfl : littleMap = room := Option.some.inj made
    obtain rfl : Segment.make 64 = current := Option.some.inj last
    decide

theorem InternalMap.calls_new_put : ∃ m' records, littleMap.calls directly [firstCall,.Get [9] [0,0,0,1]] =
      some (m',(FiniteMap.calls true (fun _ => none) [firstCall,.Get [9] [0,0,0,1]]).2) ∧ m'.Holds records ∧
      (records.map Record.key).Nodup ∧
      lookup records = (FiniteMap.calls true (fun _ => none) [firstCall,.Get [9] [0,0,0,1]]).1 := by
  have new : newInternalMapWithOptions directly true (some ⟨75,8,64,64,9⟩) = some littleMap := rfl
  refine calls_new new (by decide) (by norm_num [littleMap]) ?_ ?_
  · intro call member
    rcases List.mem_pair.mp member with rfl | rfl
    · exact ⟨by decide,by decide,by decide,by decide⟩
    · exact ⟨by decide,by decide⟩
  · refine ⟨fun _ => littleMap_fits,?_⟩
    intro m' _
    exact ⟨trivial,fun _ _ => trivial⟩

section WideSegments

/-- A map whose first segment has room for more than `2^32` bytes. -/
def wideMap : InternalMap :=
  ⟨true,⟨75,8,2 ^ 33,defaultFileSegmentSize,9⟩,1,[Segment.make (2 ^ 33)],List.replicate 457 ⟨0,0⟩,0,197⟩

def wideCalls (value : Bytes) : List Call :=
  [.PutIfAbsent [0,0,0,1] value,.PutIfAbsent [0,0,0,2] value,.PutIfAbsent [0,0,0,3] value,.Contains [0,0,0,3]]

/-- A new key is put into the only segment. -/
theorem put_within (os : Runtime) {m : InternalMap} {current : Segment} (segments : m.segments = [current]) {r : Record}
    (valid : r.Valid m.hasValues) (kind : m.hasValues = true) {slot : Nat} (found : m.findSlot r.key = some slot)
    (there : m.slots[slot]? = some ⟨0,0⟩) (notFull : ¬m.Full)
    (room : current.bytes.length + payloadLength r.key r.value ≤ current.cap)
    (fits : current.bytes.length + (r.encode m.hasValues).length ≤ current.cap) :
    ∃ current' : Segment, current'.bytes = current.bytes ++ r.encode m.hasValues ∧ current'.cap = current.cap ∧
      m.PutIfAbsent os r.key r.value =
        some ({ m with segments := [current'],count := m.count + 1,
                       slots := m.slots.set slot ⟨uint32 1,uint32 current.bytes.length⟩ },true) := by
  obtain ⟨current',bytes,cap,stored⟩ := store_record os [] segments valid slot
  refine ⟨current',bytes,cap fits,?_⟩
  have plain : ¬((!m.hasValues) = true ∧ r.value.length > 0) := by simp [kind]
  have slotted : m.slotFor r.key slot = some (m,slot) := by simp [slotFor,notFull]
  have roomy : m.roomFor os r.key r.value = some m := by
    simp [roomFor,segments,Nat.not_lt.mpr room]
  rw [InternalMap.PutIfAbsent,if_neg (Nat.not_lt.mpr valid.long),if_neg (Nat.not_lt.mpr valid.short),if_neg plain]
  simp only [found,there,Option.bind_eq_bind,Option.bind_some,ne_eq,not_true_eq_false,if_false,slotted,roomy,stored,
    Option.pure_def,segments,List.length_singleton,List.nil_append]

theorem findSlot_vacant {m : InternalMap} {key : Bytes} {slot : Nat} (hash : hashValue key = some slot)
    (short : key.length < 16) (there : m.slots[slot]? = some ⟨0,0⟩) : m.findSlot key = some slot := by
  have inside : slot < m.slots.length := (List.getElem?_eq_some_iff.mp there).1
  obtain ⟨more,size⟩ : ∃ more, m.slots.length = more + 1 := ⟨m.slots.length - 1,by omega⟩
  have step : h2 key = some 1 := by simp [h2,short]
  simp only [findSlot,findSlotInSlice,hash,step,Option.bind_eq_bind,Option.bind_some,Nat.mod_eq_of_lt inside]
  rw [size,Probing.walk,there]
  simp

theorem findSlot_past {m : InternalMap} {key : Bytes} {slot : Nat} {e : Entry} (hash : hashValue key = some slot)
    (short : key.length < 16) (there : m.slots[slot]? = some e) (used : e.segment ≠ 0)
    (differs : m.keyEquals e key = some false) (next : m.slots[slot + 1]? = some ⟨0,0⟩) (large : m.h2Prime = 197) :
    m.findSlot key = some (slot + 1) := by
  have inside : slot + 1 < m.slots.length := (List.getElem?_eq_some_iff.mp next).1
  obtain ⟨more,size⟩ : ∃ more, m.slots.length = more + 2 := ⟨m.slots.length - 2,by omega⟩
  have step : h2 key = some 1 := by simp [h2,short]
  have first : slot % m.slots.length = slot := Nat.mod_eq_of_lt (by omega)
  simp only [findSlot,findSlotInSlice,hash,step,Option.bind_eq_bind,Option.bind_some,first,large]
  rw [size,Probing.walk,there]
  simp only [Option.bind_eq_bind,Option.bind_some,used,if_false,differs,Bool.false_eq_true]
  rw [Probing.walk,Nat.mod_eq_of_lt (by simpa using inside)]
  simp [next]

/-- The maps that the calls go through: a segment, and the entries of the keys so far. -/
def wideAfter (seg : Segment) (entries : List (Nat × Nat)) : InternalMap :=
  { wideMap with
    segments := [seg],count := entries.length,
    slots := entries.foldl (fun slots (slot,offset) => slots.set slot ⟨1,offset⟩) wideMap.slots }

theorem notFull_wide (seg : Segment) {entries : List (Nat × Nat)} (few : entries.length < 3) :
    ¬(wideAfter seg entries).Full := by
  have size : (wideAfter seg entries).slots.length = 457 := by
    unfold wideAfter
    dsimp only
    generalize start : wideMap.slots = slots
    have length : slots.length = 457 := by
      rw [← start]
      exact List.length_replicate
    clear start few
    induction entries generalizing slots with
    | nil => exact length
    | cons entry entries ih => exact ih _ (by rw [List.length_set,length])
  have load : (wideAfter seg entries).opts.LoadFactorPercentage = 75 := rfl
  have count : (wideAfter seg entries).count = entries.length := rfl
  rw [full_iff (by rw [size,load]; decide),size,load,count]
  omega

variable {value : Bytes}

theorem length_wide (long : value.length = 2 ^ 31 - 1) (key : Bytes) (four : key.length = 4) :
    (Record.encode true ⟨key,value⟩).length = 2 ^ 31 + 9 := by
  have size : (putUvarint (UInt64.ofNat (2 ^ 31 - 1))).length = 5 := by decide +kernel
  rw [Record.length_encode,if_pos rfl,long,four,size]
  omega

theorem valid_wide (long : value.length = 2 ^ 31 - 1) (key : Bytes) (four : key.length = 4) :
    Record.Valid true ⟨key,value⟩ :=
  ⟨by simp [minKeyLength,four],by simp [maxKeyLength,four],by simp [long],by simp⟩

/-- Each call adds a record to the segment, and an entry with what is left of its offset in 32 bits. -/
theorem put_wide (long : value.length = 2 ^ 31 - 1) (seg : Segment) (entries : List (Nat × Nat)) (key : Bytes)
    (few : entries.length < 3) (cap : seg.cap = 2 ^ 33) (used : seg.bytes.length = entries.length * (2 ^ 31 + 9))
    (slot : Nat) (hash : hashValue key = some slot) (four : key.length = 4)
    (there : (wideAfter seg entries).slots[slot]? = some ⟨0,0⟩) :
    ∃ seg', seg'.bytes = seg.bytes ++ Record.encode true ⟨key,value⟩ ∧ seg'.cap = 2 ^ 33 ∧
      (wideAfter seg entries).PutIfAbsent directly key value =
        some (wideAfter seg' (entries ++ [(slot,uint32 seg.bytes.length)]),true) := by
  have record := length_wide long key four
  have found := findSlot_vacant hash (by omega) there
  obtain ⟨seg',bytes,cap',put⟩ := put_within directly (m := wideAfter seg entries) rfl (valid_wide long key four) rfl found
    there (notFull_wide seg few) (by simp only [payloadLength,four,long,MaxVarintLen32,cap,used]; omega)
    (by rw [show (wideAfter seg entries).hasValues = true from rfl,record,cap,used]; omega)
  refine ⟨seg',bytes,cap'.trans cap,put.trans ?_⟩
  simp only [wideAfter,List.length_append,List.length_singleton,List.foldl_append,List.foldl_cons,List.foldl_nil]
  rfl

/-- The third record starts beyond `2^32`, and its entry refers to the middle of the first one, to a key of no bytes. -/
theorem wide_run (long : value.length = 2 ^ 31 - 1) (zero : value[8]? = some 0) :
    ∃ m', wideMap.calls directly (wideCalls value) =
      some (m',[.added true,.added true,.added true,.contained false]) := by
  have start : wideMap = wideAfter (Segment.make (2 ^ 33)) [] := rfl
  obtain ⟨one,bytes₁,cap₁,put₁⟩ :=
    put_wide long (Segment.make (2 ^ 33)) [] [0,0,0,1] (by decide) rfl rfl 1 rfl rfl rfl
  have length₁ : one.bytes.length = 1 * (2 ^ 31 + 9) := by
    rw [bytes₁,List.length_append,length_wide long _ rfl]
    rfl
  obtain ⟨two,bytes₂,cap₂,put₂⟩ := put_wide long one [(1,0)] [0,0,0,2] (by decide) cap₁ length₁ 2 rfl rfl rfl
  have length₂ : two.bytes.length = 2 * (2 ^ 31 + 9) := by
    rw [bytes₂,List.length_append,length_wide long _ rfl,length₁]
    omega
  have second : uint32 one.bytes.length = 2 ^ 31 + 9 := by
    rw [length₁]
    rfl
  have third : uint32 two.bytes.length = 18 := by
    rw [length₂]
    rfl
  rw [second] at put₂
  obtain ⟨three,bytes₃,cap₃,put₃⟩ :=
    put_wide long two [(1,0),(2,2 ^ 31 + 9)] [0,0,0,3] (by decide) cap₂ length₂ 3 rfl rfl rfl
  rw [third] at put₃
  have middle : three.bytes[18]? = some 0 := by
    have front : three.bytes = [4,0,0,0,1] ++ (putUvarint (UInt64.ofNat (2 ^ 31 - 1)) ++ value) ++
        (Record.encode true ⟨[0,0,0,2],value⟩ ++ Record.encode true ⟨[0,0,0,3],value⟩) := by
      rw [bytes₃,bytes₂,bytes₁]
      simp [Record.encode,long,Segment.make]
    have size : (putUvarint (UInt64.ofNat (2 ^ 31 - 1))).length = 5 := by decide +kernel
    generalize putUvarint (UInt64.ofNat (2 ^ 31 - 1)) = vlen at front size
    rw [front,List.getElem?_append_left (by simp [size,long]),List.getElem?_append_right (by simp),
      List.getElem?_append_right (by simp [size])]
    simpa [size] using zero
  have none : three.slice (uint32 19) (uint32 19) = some [] := by
    simp [Segment.slice,uint32,cap₃]
  have lost : (wideAfter three [(1,0),(2,2 ^ 31 + 9),(3,18)]).Contains [0,0,0,3] = some false := by
    have differs : (wideAfter three [(1,0),(2,2 ^ 31 + 9),(3,18)]).keyEquals ⟨1,18⟩ [0,0,0,3] = some false := by
      have segment : (wideAfter three [(1,0),(2,2 ^ 31 + 9),(3,18)]).segments[0]? = some three := rfl
      have length : (0 : UInt8).toNat = 0 := rfl
      simp only [keyEquals,keyAt,Nat.sub_self,segment,Option.bind_eq_bind,Option.bind_some,middle,length,Nat.add_zero,
        none]
      rfl
    have passed := findSlot_past (m := wideAfter three [(1,0),(2,2 ^ 31 + 9),(3,18)]) rfl (by decide) rfl (by decide)
      differs rfl rfl
    simp only [Contains,passed,Option.bind_eq_bind,Option.bind_some]
    rfl
  have firstCall : wideMap.call directly (.PutIfAbsent [0,0,0,1] value) = some (wideAfter one [(1,0)],.added true) := by
    rw [start,InternalMap.call,put₁]
    rfl
  have secondCall : (wideAfter one [(1,0)]).call directly (.PutIfAbsent [0,0,0,2] value) =
      some (wideAfter two [(1,0),(2,2 ^ 31 + 9)],.added true) := by
    rw [InternalMap.call,put₂]
    rfl
  have thirdCall : (wideAfter two [(1,0),(2,2 ^ 31 + 9)]).call directly (.PutIfAbsent [0,0,0,3] value) =
      some (wideAfter three [(1,0),(2,2 ^ 31 + 9),(3,18)],.added true) := by
    rw [InternalMap.call,put₃]
    rfl
  have lastCall : (wideAfter three [(1,0),(2,2 ^ 31 + 9),(3,18)]).call directly (.Contains [0,0,0,3]) =
      some (wideAfter three [(1,0),(2,2 ^ 31 + 9),(3,18)],.contained false) := by
    rw [InternalMap.call,lost]
    rfl
  exact ⟨_,calls_cons firstCall (calls_cons secondCall (calls_cons thirdCall (calls_cons lastCall rfl)))⟩

/-- In segments of more than 4 GiB keys get lost. -/
theorem InternalMap.calls_wide_lost : ∃ m calls,
    newInternalMapWithOptions directly true (some ⟨75,8,2 ^ 33,0,9⟩) = some m ∧ m.slots.length.Prime ∧
    (∀ call ∈ calls, call.Valid true) ∧
    ¬∃ m', m.calls directly calls = some (m',(FiniteMap.calls true (fun _ => none) calls).2) := by
  obtain ⟨value,long,zero⟩ : ∃ value : Bytes, value.length = 2 ^ 31 - 1 ∧ value[8]? = some 0 :=
    ⟨List.replicate (2 ^ 31 - 1) 0,List.length_replicate,by rw [List.getElem?_replicate]; simp⟩
  refine ⟨wideMap,wideCalls value,rfl,by norm_num [wideMap],?_,?_⟩
  · intro call member
    have cases : call = .PutIfAbsent [0,0,0,1] value ∨ call = .PutIfAbsent [0,0,0,2] value ∨
        call = .PutIfAbsent [0,0,0,3] value ∨ call = .Contains [0,0,0,3] := by simpa [wideCalls] using member
    rcases cases with rfl | rfl | rfl | rfl
    · exact valid_wide long _ rfl
    · exact valid_wide long _ rfl
    · exact valid_wide long _ rfl
    · exact ⟨by decide,by decide⟩
  · rintro ⟨m',run⟩
    obtain ⟨m'',done⟩ := wide_run long zero
    rw [done] at run
    have answers := (Prod.mk.inj (Option.some.inj run)).2
    simp [wideCalls,FiniteMap.calls,FiniteMap.call,Function.update] at answers

end WideSegments

end Vbe.Bigmap
