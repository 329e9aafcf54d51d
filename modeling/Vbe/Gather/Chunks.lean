import Mathlib.Data.List.Perm.Subperm
import Mathlib.Data.List.Forall2
import Mathlib.Logic.Function.Basic
import Vbe.Library.Runs

/-! Write buffers that keep their bytes in chunks, which allocators hand out again once they are released. -/
namespace Vbe.Gather.Chunks

section Model

/-- The allocators. -/
inductive Kind
  | defaultAllocator
  | typicalContiguousAllocator
  | maxContiguousAllocator
deriving DecidableEq

structure Config where
  chunkSize : Kind → Nat
  maxFreeListSize : Kind → Nat

def config (numCPU : Nat) : Config where
  chunkSize
    | .defaultAllocator => 1 <<< 16
    | .typicalContiguousAllocator => (8 <<< 20) + 128
    | .maxContiguousAllocator => (16 <<< 20) + 128
  maxFreeListSize
    | .defaultAllocator => 2048
    | .typicalContiguousAllocator | .maxContiguousAllocator => numCPU

/-- All arrays with their bytes, as many as the capacity. -/
abbrev Memory := List (List UInt8)

/-- The first bytes of an array. -/
structure Slice where
  array : Nat
  len : Nat
deriving DecidableEq

def Memory.get (mem : Memory) (array : Nat) : List UInt8 := mem[array]?.getD []

def Memory.cap (mem : Memory) (array : Nat) : Nat := (mem.get array).length

def Memory.bytes (mem : Memory) (s : Slice) : List UInt8 := (mem.get s.array).take s.len

def Memory.flat (mem : Memory) (slices : List Slice) : List UInt8 := slices.flatMap mem.bytes

/-- What lies in an array after some bytes have been put at an offset. -/
def overwrite {α : Type} (old : List α) (offset : Nat) (data : List α) : List α :=
  old.take offset ++ data ++ old.drop (offset + data.length)

/-- The last array of the free list comes first. -/
structure Allocator where
  freeList : List Nat
  freeListHighWaterMark : Nat
  allocHighWaterMark : Int
  allocated : Nat
  slicesAllocated : Nat
  freed : Nat
deriving DecidableEq

def Allocator.fresh : Allocator := ⟨[],0,0,0,0,0⟩

variable (config : Config)

def allocChunk (k : Kind) (mem : Memory) (a : Allocator) : Slice × Memory × Allocator :=
  let tot : Int := a.allocated + 1 - a.freed
  let a := { a with
    allocated := a.allocated + 1
    allocHighWaterMark := if tot > a.allocHighWaterMark then tot else a.allocHighWaterMark }
  match a.freeList with
  | [] => (⟨mem.length,0⟩,mem ++ [List.replicate (config.chunkSize k) 0],{ a with slicesAllocated := a.slicesAllocated + 1 })
  | ch :: rest => (⟨ch,0⟩,mem,{ a with freeList := rest })

def releaseChunk (k : Kind) (mem : Memory) (a : Allocator) (s : Slice) : Allocator :=
  if mem.cap s.array ≠ config.chunkSize k then a
  else
    let freeList := if a.freeList.length < config.maxFreeListSize k then s.array :: a.freeList else a.freeList
    { a with
      freed := a.freed + 1
      freeList := freeList
      freeListHighWaterMark := if freeList.length > a.freeListHighWaterMark then freeList.length else a.freeListHighWaterMark }

/-- What is done once the chunks are released. -/
inductive After
  | Reset
  | Close
  | MakeContiguous (length : Nat)
deriving DecidableEq

/-- What is left of the call that has the lock of a buffer. -/
inductive Call
  | Append (data : List UInt8)
  | release (k : Kind) (left : List Slice) (after : After)
  | finish (after : After)
deriving DecidableEq

/-- `made` is the length of what the last `MakeContiguous` returned. -/
structure WriteBuffer where
  alloc : Option Kind
  Slices : List Slice
  valid : Bool
  made : Nat
  call : Option Call
deriving DecidableEq

def WriteBuffer.fresh (alloc : Option Kind) : WriteBuffer := ⟨alloc,[],true,0,none⟩

inductive Op
  | Append (data : List UInt8)
  | after (after : After)
deriving DecidableEq

/-- The chunks to release are no longer looked at by anyone, so they are taken away here. -/
def WriteBuffer.begin (b : WriteBuffer) (op : Op) : Option WriteBuffer :=
  if b.call.isSome then none
  else
    match op with
    | .Append data => if b.valid then some { b with call := some (.Append data) } else none
    | .after after =>
      match b.alloc with
      | none => some { b with Slices := [], made := 0, call := some (.finish after) }
      | some k => some { b with Slices := [], made := 0, call := some (.release k b.Slices after) }

abbrev Allocators := Kind → Allocator

def setAllocator (al : Allocators) (k : Kind) (a : Allocator) : Allocators := fun k' => if k' = k then a else al k'

def WriteBuffer.grow (mem : Memory) (al : Allocators) (b : WriteBuffer) : Memory × Allocators × WriteBuffer :=
  let k := b.alloc.getD .defaultAllocator
  let (s,mem,a) := allocChunk config k mem (al k)
  (mem,setAllocator al k a,{ b with alloc := some k, Slices := b.Slices ++ [s] })

def WriteBuffer.contiguous (mem : Memory) (al : Allocators) (k : Kind) (length : Nat) : Memory × Allocators × WriteBuffer :=
  let (s,mem,a) := allocChunk config k mem (al k)
  (mem,setAllocator al k a,⟨some k,[⟨s.array,length⟩],true,length,none⟩)

/-- What a call does up to the next place where another goroutine can come in between. -/
def WriteBuffer.go (mem : Memory) (al : Allocators) (b : WriteBuffer) : Option (Memory × Allocators × WriteBuffer) :=
  match b.call with
  | none => none
  | some (.Append data) =>
    match b.Slices.getLast? with
    | none => some (b.grow config mem al)
    | some s =>
      if data = [] then some (mem,al,{ b with call := none })
      else
        let remaining := mem.cap s.array - s.len
        if remaining = 0 then some (b.grow config mem al)
        else
          let chunkSize := if remaining > data.length then data.length else remaining
          some (mem.set s.array (overwrite (mem.get s.array) s.len (data.take chunkSize)),al,{ b with
            Slices := b.Slices.dropLast ++ [⟨s.array,s.len + chunkSize⟩]
            call := some (.Append (data.drop chunkSize)) })
  | some (.release k (s :: left) after) =>
    some (mem,setAllocator al k (releaseChunk config k mem (al k) s),{ b with call := some (.release k left after) })
  | some (.release _ [] after) => some (mem,al,{ b with call := some (.finish after) })
  | some (.finish .Reset) => some (mem,al,.fresh none)
  | some (.finish .Close) => some (mem,al,{ WriteBuffer.fresh none with valid := false })
  | some (.finish (.MakeContiguous length)) =>
    if length ≤ config.chunkSize .typicalContiguousAllocator then
      some (WriteBuffer.contiguous config mem al .typicalContiguousAllocator length)
    else if length ≤ config.chunkSize .maxContiguousAllocator then
      some (WriteBuffer.contiguous config mem al .maxContiguousAllocator length)
    else some (mem ++ [List.replicate length 0],al,⟨none,[⟨mem.length,length⟩],true,length,none⟩)

structure World where
  mem : Memory
  allocators : Allocators
  buffers : List WriteBuffer

def World.start : World := ⟨[],fun _ => .fresh,[]⟩

inductive Label
  | NewWriteBuffer
  | NewWriteBufferMaxContiguous
  | Dup (b : Nat)
  | call (b : Nat) (op : Op)
  | go (b : Nat)
  /-- The caller of `MakeContiguous` writes into what it returned. -/
  | store (b : Nat) (offset : Nat) (data : List UInt8)
deriving DecidableEq

def step (w : World) : Label → Option World
  | .NewWriteBuffer => some { w with buffers := w.buffers ++ [.fresh none] }
  | .NewWriteBufferMaxContiguous => some { w with buffers := w.buffers ++ [.fresh (some .maxContiguousAllocator)] }
  | .Dup i =>
    match w.buffers[i]? with
    | none => none
    | some b =>
      if b.call.isNone && b.valid then
        let data := w.mem.flat b.Slices
        some { w with
          mem := w.mem ++ [data]
          buffers := w.buffers ++ [⟨b.alloc,[⟨w.mem.length,data.length⟩],true,0,none⟩] }
      else none
  | .call i op =>
    match w.buffers[i]? with
    | none => none
    | some b => (b.begin op).map fun b => { w with buffers := w.buffers.set i b }
  | .go i =>
    match w.buffers[i]? with
    | none => none
    | some b => (b.go config w.mem w.allocators).map fun (mem,al,b) => ⟨mem,al,w.buffers.set i b⟩
  | .store i offset data =>
    match w.buffers[i]? with
    | none => none
    | some b =>
      match b.Slices with
      | [] => none
      | s :: _ =>
        if offset + data.length ≤ b.made then
          some { w with mem := w.mem.set s.array (overwrite (w.mem.get s.array) offset data) }
        else none

end Model

section Memory
variable {mem mem' : Memory} {slices slices' : List Slice} {touched : List Nat} {array : Nat} {data : List UInt8}

theorem overwrite_length {α : Type} {old data : List α} {offset : Nat} (inside : offset + data.length ≤ old.length) :
    (overwrite old offset data).length = old.length := by
  simp only [overwrite,List.length_append,List.length_take,List.length_drop]
  omega

/-- What is put in the front of an array stays in the front. -/
theorem overwrite_take {α : Type} {old data : List α} {offset n : Nat} (inside : offset + data.length ≤ n) (fits : n ≤ old.length) (rest : List α) :
    (overwrite old offset data).take n ++ rest = overwrite (old.take n ++ rest) offset data := by
  have before : (old.take n ++ rest).take offset = old.take offset := by
    rw [List.take_append_of_le_length (by rw [List.length_take]; omega),List.take_take]
    congr 1
    omega
  have behind : (old.take n ++ rest).drop (offset + data.length) = (old.drop (offset + data.length)).take (n - (offset + data.length)) ++ rest := by
    rw [List.drop_append_of_le_length (by rw [List.length_take]; omega),List.drop_take]
  have long : (old.take offset ++ data).length = offset + data.length := by
    rw [List.length_append,List.length_take]
    omega
  rw [overwrite,overwrite,before,behind,List.take_append,List.take_of_length_le (by omega),long,List.append_assoc]

theorem flat_append (mem : Memory) (slices slices' : List Slice) :
    mem.flat (slices ++ slices') = mem.flat slices ++ mem.flat slices' := List.flatMap_append

theorem flat_singleton (mem : Memory) (s : Slice) : mem.flat [s] = mem.bytes s := List.flatMap_singleton ..

theorem get_push (mem : Memory) (data : List UInt8) : Memory.get (mem ++ [data]) mem.length = data := by
  simp [Memory.get]

theorem get_set (known : array < mem.length) : Memory.get (mem.set array data) array = data := by
  simp [Memory.get,known]

/-- What has changed in memory: some arrays, and new ones. -/
structure Touched (mem mem' : Memory) (touched : List Nat) : Prop where
  longer : mem.length ≤ mem'.length
  caps : ∀ id < mem.length, mem'.cap id = mem.cap id
  same : ∀ id < mem.length, id ∉ touched → mem'.get id = mem.get id

theorem Touched.refl (mem : Memory) : Touched mem mem [] := ⟨Nat.le_refl _,fun _ _ => rfl,fun _ _ _ => rfl⟩

theorem Touched.push (mem : Memory) (data : List UInt8) : Touched mem (mem ++ [data]) [] := by
  have old (id : Nat) (known : id < mem.length) : Memory.get (mem ++ [data]) id = mem.get id := by
    simp [Memory.get,List.getElem?_append_left known]
  exact ⟨by simp,fun id known => congrArg List.length (old id known),fun id known _ => old id known⟩

theorem Touched.set (size : data.length = mem.cap array) : Touched mem (mem.set array data) [array] := by
  have other (id : Nat) (different : id ≠ array) : Memory.get (mem.set array data) id = mem.get id := by
    simp [Memory.get,List.getElem?_set_ne different.symm]
  refine ⟨by simp,fun id known => ?_,fun id known outside => other id (List.ne_of_not_mem_cons outside)⟩
  by_cases same : id = array
  · subst same
    rw [Memory.cap,get_set known,size]
  · exact congrArg List.length (other id same)

theorem Touched.flat (touch : Touched mem mem' touched) (known : ∀ s ∈ slices, s.array < mem.length)
    (apart : ∀ s ∈ slices, s.array ∉ touched) : mem'.flat slices = mem.flat slices := by
  refine List.flatMap_congr fun s member => ?_
  rw [Memory.bytes,touch.same _ (known s member) (apart s member)]
  rfl

end Memory

section Contents

/-- What the caller of a buffer can say about its bytes: those that were never written are unknown. -/
def Known (bytes : List UInt8) (known : List (Option UInt8)) : Prop :=
  List.Forall₂ (fun x o => o = none ∨ o = some x) bytes known

structure Contents where
  bytes : List (Option UInt8)
  made : Nat
  valid : Bool
deriving DecidableEq

def Contents.empty : Contents := ⟨[],0,true⟩

def After.contents : After → Contents
  | .Reset => .empty
  | .Close => { Contents.empty with valid := false }
  | .MakeContiguous length => ⟨List.replicate length none,length,true⟩

def Contents.after (c : Contents) : Op → Contents
  | .Append data => { c with bytes := c.bytes ++ data.map some }
  | .after after => after.contents

/-- What the calls make of buffers that are apart from each other. -/
def told (contents : List Contents) : Label → List Contents
  | .NewWriteBuffer | .NewWriteBufferMaxContiguous => contents ++ [.empty]
  | .Dup i => contents ++ [{ contents[i]?.getD .empty with made := 0 }]
  | .call i op => contents.modify i fun c => c.after op
  | .go _ => contents
  | .store i offset data => contents.modify i fun c => { c with bytes := overwrite c.bytes offset (data.map some) }

/-- How a buffer stands to its contents, where a call is on its way. -/
def Agrees (mem : Memory) (b : WriteBuffer) (c : Contents) : Prop :=
  match b.call with
  | none => Known (mem.flat b.Slices) c.bytes ∧ b.made = c.made ∧ b.valid = c.valid
  | some (.Append data) => Known (mem.flat b.Slices ++ data) c.bytes ∧ b.made = c.made ∧ b.valid = c.valid
  | some (.release _ _ after) | some (.finish after) => c = after.contents

variable {bytes bytes' : List UInt8} {known known' : List (Option UInt8)} {data : List UInt8}

theorem Known.written (data : List UInt8) : Known data (data.map some) := by
  induction data with
  | nil => exact .nil
  | cons x data ih => exact .cons (.inr rfl) ih

theorem Known.unwritten (bytes : List UInt8) : Known bytes (List.replicate bytes.length none) := by
  induction bytes with
  | nil => exact .nil
  | cons x bytes ih => exact .cons (.inl rfl) ih

theorem Known.append (first : Known bytes known) (second : Known bytes' known') : Known (bytes ++ bytes') (known ++ known') :=
  List.rel_append first second

theorem Known.overwrite (old : Known bytes known) (offset : Nat) (data : List UInt8) :
    Known (overwrite bytes offset data) (overwrite known offset (data.map some)) := by
  unfold Chunks.overwrite
  rw [List.length_map]
  exact (Known.append (List.forall₂_take offset old) (Known.written data)).append (List.forall₂_drop _ old)

end Contents

section Moves
variable {config : Config} {k : Kind} {mem mem' : Memory} {al al' : Allocators} {a a' : Allocator} {b b' : WriteBuffer} {s : Slice}
  {fresh touched : List Nat}

/-- All chunks of a buffer, also those that are still to be released. -/
def WriteBuffer.held (b : WriteBuffer) : List Slice :=
  b.Slices ++ match b.call with
    | some (.release _ left _) => left
    | _ => []

def WriteBuffer.arrays (b : WriteBuffer) : List Nat := b.held.map Slice.array

/-- How long the first slice is. -/
def WriteBuffer.first (b : WriteBuffer) : Nat :=
  match b.Slices with
  | [] => 0
  | s :: _ => s.len

/-- The chunks that a buffer has to release to an allocator. -/
def WriteBuffer.alive (config : Config) (mem : Memory) (k : Kind) (b : WriteBuffer) : List Slice :=
  ((if b.alloc = some k then b.Slices else []) ++ match b.call with
    | some (.release k' left _) => if k' = k then left else []
    | _ => []).filter fun s => mem.cap s.array = config.chunkSize k

/-- A buffer by itself. -/
structure WriteBuffer.Sound (mem : Memory) (b : WriteBuffer) : Prop where
  fits : ∀ s ∈ b.held, s.len ≤ mem.cap s.array
  made : b.made ≤ b.first
  emptied : (∀ k left after, b.call = some (.release k left after) → b.Slices = []) ∧ ∀ after, b.call = some (.finish after) → b.Slices = []

/-- An allocator by itself. -/
structure Allocator.Sound (config : Config) (mem : Memory) (k : Kind) (a : Allocator) : Prop where
  sized : ∀ id ∈ a.freeList, mem.cap id = config.chunkSize k
  free : a.freeList.length ≤ a.freeListHighWaterMark
  bound : a.freeListHighWaterMark ≤ config.maxFreeListSize k
  mark : (a.allocated : Int) - a.freed ≤ a.allocHighWaterMark

/-- A chunk that an allocator has handed out. -/
structure Taken (config : Config) (k : Kind) (mem mem' : Memory) (a a' : Allocator) (s : Slice) (fresh : List Nat) : Prop where
  empty : s.len = 0
  size : mem'.cap s.array = config.chunkSize k
  touched : Touched mem mem' []
  new : fresh = [] ∨ fresh = [mem.length] ∧ mem.length < mem'.length
  owned : (s.array :: a'.freeList).Perm (fresh ++ a.freeList)
  sound : a'.Sound config mem' k
  count : a'.allocated = a.allocated + 1 ∧ a'.freed = a.freed

theorem allocChunk_taken (sound : a.Sound config mem k) (known : ∀ id ∈ a.freeList, id < mem.length) :
    ∃ fresh, Taken config k mem (allocChunk config k mem a).2.1 a (allocChunk config k mem a).2.2 (allocChunk config k mem a).1 fresh := by
  have mark : (a.allocated + 1 : Int) - a.freed ≤
      if (a.allocated + 1 : Int) - a.freed > a.allocHighWaterMark then (a.allocated + 1 : Int) - a.freed else a.allocHighWaterMark := by
    split <;> omega
  obtain ⟨freeList,freeMark,allocMark,allocated,slices,freed⟩ := a
  cases freeList with
  | nil =>
    refine ⟨[mem.length],rfl,?_,.push mem _,.inr ⟨rfl,by simp [allocChunk]⟩,.refl _,⟨?_,sound.free,sound.bound,?_⟩,rfl,rfl⟩
    · rw [Memory.cap]
      exact (congrArg List.length (get_push mem _)).trans List.length_replicate
    · exact fun id member => absurd member List.not_mem_nil
    · simpa [allocChunk] using mark
  | cons ch rest =>
    have fewer : rest.length ≤ freeMark := by
      have := sound.free
      simp only [List.length_cons] at this
      omega
    refine ⟨[],rfl,sound.sized ch List.mem_cons_self,.refl mem,.inl rfl,.refl _,⟨?_,fewer,sound.bound,?_⟩,rfl,rfl⟩
    · exact fun id member => sound.sized id (List.mem_cons_of_mem _ member)
    · simpa [allocChunk] using mark

/-- What a move does to one buffer and one allocator, where the contents of the buffer change. -/
structure Went (change : Contents → Contents) (config : Config) (k : Kind) (fresh touched : List Nat) (mem mem' : Memory) (a a' : Allocator) (b b' : WriteBuffer) : Prop where
  touch : Touched mem mem' touched
  own : ∀ id ∈ touched, id ∈ b.arrays
  new : fresh = [] ∨ fresh = [mem.length] ∧ mem.length < mem'.length
  owned : (a'.freeList ++ b'.arrays).Subperm (fresh ++ (a.freeList ++ b.arrays))
  allocator : a'.Sound config mem' k
  buffer : b'.Sound mem'
  agrees : ∀ c, Agrees mem b c → Agrees mem' b' (change c)
  others : ∀ other, other ≠ k → (b.alive config mem other).length ≤ (b'.alive config mem' other).length
  alive : a'.allocated + a.freed + (b.alive config mem k).length ≤ a.allocated + a'.freed + (b'.alive config mem' k).length

/-- What a move of a call starts from. -/
structure Ready (config : Config) (mem : Memory) (al : Allocators) (b : WriteBuffer) : Prop where
  allocators : ∀ k, (al k).Sound config mem k
  free : ∀ k, ∀ id ∈ (al k).freeList, id < mem.length
  buffer : b.Sound mem
  known : ∀ s ∈ b.held, s.array < mem.length
  apart : b.arrays.Nodup

theorem Allocator.Sound.kept (sound : a.Sound config mem k) (touch : Touched mem mem' touched)
    (free : ∀ id ∈ a.freeList, id < mem.length) : a.Sound config mem' k :=
  ⟨fun id member => (touch.caps id (free id member)).trans (sound.sized id member),sound.free,sound.bound,sound.mark⟩

theorem chunks_touched (touch : Touched mem mem' touched) {slices : List Slice} (known : ∀ s ∈ slices, s.array < mem.length) :
    (slices.filter fun s => mem'.cap s.array = config.chunkSize k) = slices.filter fun s => mem.cap s.array = config.chunkSize k :=
  List.filter_congr fun s member => by rw [touch.caps _ (known s member)]

theorem alive_touched (touch : Touched mem mem' touched) (known : ∀ s ∈ b.held, s.array < mem.length) :
    b.alive config mem' k = b.alive config mem k := by
  refine chunks_touched touch fun s member => known s ?_
  rcases List.mem_append.mp member with here | there
  · split at here
    next => exact List.mem_append_left _ here
    next => exact absurd here List.not_mem_nil
  · refine List.mem_append_right _ ?_
    split at there
    next k' left after call =>
      split at there
      next => exact there
      next => exact absurd there List.not_mem_nil
    next => exact absurd there List.not_mem_nil

theorem held_append {data : List UInt8} (call : b.call = some (.Append data)) : b.held = b.Slices := by
  rw [WriteBuffer.held,call]
  exact List.append_nil _

theorem held_idle (call : b.call = none) : b.held = b.Slices := by
  rw [WriteBuffer.held,call]
  exact List.append_nil _

theorem emptied_append {data : List UInt8} (call : b.call = some (.Append data)) :
    (∀ k left after, b.call = some (.release k left after) → b.Slices = []) ∧ ∀ after, b.call = some (.finish after) → b.Slices = [] := by
  rw [call]
  exact ⟨fun _ _ _ wrong => (by cases wrong),fun _ wrong => (by cases wrong)⟩

theorem emptied_idle (call : b.call = none) :
    (∀ k left after, b.call = some (.release k left after) → b.Slices = []) ∧ ∀ after, b.call = some (.finish after) → b.Slices = [] := by
  rw [call]
  exact ⟨fun _ _ _ wrong => (by cases wrong),fun _ wrong => (by cases wrong)⟩

theorem grow_taken (ready : Ready config mem al b) : ∃ k fresh s mem' a', k = b.alloc.getD .defaultAllocator ∧
    b.grow config mem al = (mem',setAllocator al k a',{ b with alloc := some k, Slices := b.Slices ++ [s] }) ∧
    Taken config k mem mem' (al k) a' s fresh := by
  obtain ⟨fresh,taken⟩ := allocChunk_taken (ready.allocators (b.alloc.getD .defaultAllocator)) (ready.free (b.alloc.getD .defaultAllocator))
  exact ⟨_,fresh,_,_,_,rfl,rfl,taken⟩

/-- A call of `Append` takes another chunk. -/
theorem went_grow {data : List UInt8} (ready : Ready config mem al b) (call : b.call = some (.Append data)) :
    ∃ k fresh a' mem' b', b.grow config mem al = (mem',setAllocator al k a',b') ∧ Went id config k fresh [] mem mem' (al k) a' b b' := by
  obtain ⟨k,fresh,s,mem',a',owner,grown,taken⟩ := grow_taken ready
  have held := held_append call
  have known : ∀ s ∈ b.Slices, s.array < mem.length := held ▸ ready.known
  refine ⟨k,fresh,a',mem',_,grown,taken.touched,fun id member => absurd member List.not_mem_nil,taken.new,?_,taken.sound,⟨?_,?_,?_⟩,?_,?_,?_⟩
  · have arrays : ({ b with alloc := some k, Slices := b.Slices ++ [s] } : WriteBuffer).arrays = b.arrays ++ [s.array] := by
      simp [WriteBuffer.arrays,WriteBuffer.held,call]
    rw [arrays]
    refine List.Perm.subperm ?_
    calc a'.freeList ++ (b.arrays ++ [s.array])
      _ = (a'.freeList ++ b.arrays) ++ [s.array] := (List.append_assoc ..).symm
      _ |>.Perm ((s.array :: a'.freeList) ++ b.arrays) := List.perm_append_singleton _ _
      _ |>.Perm ((fresh ++ (al k).freeList) ++ b.arrays) := taken.owned.append_right _
      _ = fresh ++ ((al k).freeList ++ b.arrays) := List.append_assoc ..
  · intro s' member
    rw [held_append (b := { b with alloc := some k, Slices := b.Slices ++ [s] }) call,List.mem_append,List.mem_singleton] at member
    rcases member with old | rfl
    · rw [taken.touched.caps _ (known s' old)]
      exact ready.buffer.fits s' (held ▸ old)
    · rw [taken.empty]
      exact Nat.zero_le _
  · have made := ready.buffer.made
    unfold WriteBuffer.first at made ⊢
    cases shape : b.Slices with
    | nil => simp_all
    | cons first rest => simp_all
  · exact emptied_append call
  · intro c agrees
    have same : mem'.flat (b.Slices ++ [s]) = mem.flat b.Slices := by
      rw [flat_append,flat_singleton,Memory.bytes,taken.empty,List.take_zero,List.append_nil]
      exact taken.touched.flat known fun _ _ => List.not_mem_nil
    simp only [Agrees,call] at agrees ⊢
    rwa [same]
  · intro other different
    have none : b.alive config mem other = [] := by
      have apart : b.alloc ≠ some other := fun same => different (by simp [owner,same])
      simp [WriteBuffer.alive,call,apart]
    rw [none]
    exact Nat.zero_le _
  · have before : (b.alive config mem k).length ≤ (b.Slices.filter fun s => mem.cap s.array = config.chunkSize k).length := by
      simp only [WriteBuffer.alive,call,List.append_nil]
      split <;> simp
    have after : ({ b with alloc := some k, Slices := b.Slices ++ [s] } : WriteBuffer).alive config mem' k =
        (b.Slices.filter fun s => mem.cap s.array = config.chunkSize k) ++ [s] := by
      simp only [WriteBuffer.alive,call,List.append_nil,if_true,List.filter_append,chunks_touched taken.touched known]
      simp [taken.size]
    rw [after,List.length_append,taken.count.1,taken.count.2,List.length_singleton]
    omega

/-- A move that gives no chunk away and takes none. -/
theorem went_kept {change : Contents → Contents} (ready : Ready config mem al b) (k : Kind) (touch : Touched mem mem' touched) (own : ∀ id ∈ touched, id ∈ b.arrays)
    (arrays : b'.arrays.Subperm b.arrays) (sound : b'.Sound mem') (agrees : ∀ c, Agrees mem b c → Agrees mem' b' (change c))
    (alive : ∀ k, (b.alive config mem k).length ≤ (b'.alive config mem' k).length) :
    Went change config k [] touched mem mem' (al k) (al k) b b' where
  touch := touch
  own := own
  new := .inl rfl
  owned := (List.subperm_append_left _).mpr arrays
  allocator := (ready.allocators k).kept touch (ready.free k)
  buffer := sound
  agrees := agrees
  others other _ := alive other
  alive := Nat.add_le_add_left (alive k) _

theorem alive_append {data : List UInt8} (call : b.call = some (.Append data)) (k : Kind) :
    b.alive config mem k = (if b.alloc = some k then b.Slices else []).filter fun s => mem.cap s.array = config.chunkSize k := by
  rw [WriteBuffer.alive,call]
  exact congrArg _ (List.append_nil _)

/-- A call of `Append` copies as many bytes as there is room for. -/
theorem went_copy {data : List UInt8} {n : Nat} (ready : Ready config mem al b) (call : b.call = some (.Append data))
    (last : b.Slices.getLast? = some s) (few : n ≤ data.length) (room : n ≤ mem.cap s.array - s.len) (k : Kind) :
    Went id config k [] [s.array] mem (mem.set s.array (overwrite (mem.get s.array) s.len (data.take n))) (al k) (al k) b
      { b with Slices := b.Slices.dropLast ++ [⟨s.array,s.len + n⟩], call := some (.Append (data.drop n)) } := by
  obtain ⟨init,slices⟩ := List.getLast?_eq_some_iff.mp last
  have held := held_append call
  have member : s ∈ b.held := by simp [held,slices]
  have below := ready.buffer.fits s member
  have known := ready.known s member
  have length : (data.take n).length = n := by simp [few]
  have size : (overwrite (mem.get s.array) s.len (data.take n)).length = mem.cap s.array :=
    overwrite_length (by rw [length]; have : mem.cap s.array = (mem.get s.array).length := rfl; omega)
  have touch := Touched.set size
  have apart : ∀ s' ∈ init, s'.array ∉ [s.array] := by
    have nodup := ready.apart
    rw [WriteBuffer.arrays,held,slices,List.map_append,List.nodup_append] at nodup
    intro s' member same
    exact nodup.2.2 s'.array (List.mem_map_of_mem member) s.array (by simp) (List.mem_singleton.mp same)
  have init_known : ∀ s' ∈ init, s'.array < mem.length := fun s' member => ready.known s' (by simp [held,slices,member])
  have front : b.Slices.dropLast = init := by simp [slices]
  rw [front]
  have arrays : ({ b with Slices := init ++ [⟨s.array,s.len + n⟩], call := some (.Append (data.drop n)) } : WriteBuffer).arrays = b.arrays := by
    simp [WriteBuffer.arrays,WriteBuffer.held,call,slices]
  refine went_kept ready k touch (fun id inside => ?_) (by rw [arrays]) ⟨?_,?_,?_⟩ ?_ ?_
  · rw [List.mem_singleton.mp inside]
    exact List.mem_map_of_mem member
  · intro s' inside
    rw [held_append (b := { b with Slices := init ++ [⟨s.array,s.len + n⟩], call := some (.Append (data.drop n)) }) rfl,List.mem_append,
      List.mem_singleton] at inside
    rcases inside with old | rfl
    · rw [touch.caps _ (init_known s' old)]
      exact ready.buffer.fits s' (by simp [held,slices,old])
    · rw [touch.caps _ known]
      dsimp only
      omega
  · have made := ready.buffer.made
    unfold WriteBuffer.first at made ⊢
    rw [slices] at made
    cases init with
    | nil =>
      simp only [List.nil_append] at made ⊢
      omega
    | cons first rest => exact made
  · exact emptied_append rfl
  · intro c agrees
    have written : Memory.flat (mem.set s.array (overwrite (mem.get s.array) s.len (data.take n))) (init ++ [⟨s.array,s.len + n⟩]) ++
        data.drop n = mem.flat b.Slices ++ data := by
      rw [flat_append,touch.flat init_known apart,flat_singleton,slices,flat_append,flat_singleton,Memory.bytes,get_set known,Memory.bytes]
      have front : (overwrite (mem.get s.array) s.len (data.take n)).take (s.len + n) = (mem.get s.array).take s.len ++ data.take n := by
        have : mem.cap s.array = (mem.get s.array).length := rfl
        rw [overwrite]
        refine List.take_left' ?_
        simp only [List.length_append,List.length_take,length]
        omega
      simp only [front,List.append_assoc,List.take_append_drop]
    simp only [Agrees,call] at agrees ⊢
    rwa [written]
  · intro k'
    rw [alive_append call,alive_append (b := { b with Slices := init ++ [⟨s.array,s.len + n⟩], call := some (.Append (data.drop n)) }) rfl]
    dsimp only
    split
    next =>
      rw [slices,List.filter_append,List.filter_append,chunks_touched touch init_known,List.length_append,List.length_append]
      refine Nat.add_le_add_left ?_ _
      simp only [List.filter_cons,List.filter_nil,touch.caps _ known]
      split <;> simp
    next => exact Nat.le_refl _

/-- The end of `Append`. -/
theorem went_end (ready : Ready config mem al b) (call : b.call = some (.Append [])) (k : Kind) :
    Went id config k [] [] mem mem (al k) (al k) b { b with call := none } := by
  have held : ({ b with call := none } : WriteBuffer).held = b.held := (held_idle rfl).trans (held_append call).symm
  refine went_kept ready k (.refl mem) (fun id member => absurd member List.not_mem_nil) ?_ ⟨?_,ready.buffer.made,?_⟩ ?_ ?_
  · rw [WriteBuffer.arrays,WriteBuffer.arrays,held]
  · rw [held]
    exact ready.buffer.fits
  · exact emptied_idle rfl
  · intro c agrees
    simpa only [Agrees,call,List.append_nil,id] using agrees
  · intro k'
    rw [alive_append call,WriteBuffer.alive]
    exact Nat.le_of_eq (congrArg (fun l => (List.filter _ l).length) (List.append_nil _).symm)

/-- All chunks are released. -/
theorem went_released {after : After} {k' : Kind} (ready : Ready config mem al b) (call : b.call = some (.release k' [] after)) (k : Kind) :
    Went id config k [] [] mem mem (al k) (al k) b { b with call := some (.finish after) } := by
  have held : ({ b with call := some (.finish after) } : WriteBuffer).held = b.held := by simp [WriteBuffer.held,call]
  refine went_kept ready k (.refl mem) (fun id member => absurd member List.not_mem_nil) ?_ ⟨?_,ready.buffer.made,?_⟩ ?_ ?_
  · rw [WriteBuffer.arrays,WriteBuffer.arrays,held]
  · rw [held]
    exact ready.buffer.fits
  · exact ⟨fun _ _ _ wrong => (by cases wrong),fun _ _ => ready.buffer.emptied.1 _ _ _ call⟩
  · intro c agrees
    simpa only [Agrees,call,id] using agrees
  · intro other
    simp [WriteBuffer.alive,call]

/-- A buffer without chunks. -/
theorem went_emptied {after : After} {valid : Bool} (ready : Ready config mem al b) (call : b.call = some (.finish after)) (k : Kind)
    (contents : after.contents = { Contents.empty with valid := valid }) :
    Went id config k [] [] mem mem (al k) (al k) b { WriteBuffer.fresh none with valid := valid } := by
  refine went_kept ready k (.refl mem) (fun id member => absurd member List.not_mem_nil) List.nil_subperm ⟨?_,Nat.le_refl _,?_⟩ ?_ ?_
  · exact fun s member => absurd member List.not_mem_nil
  · exact emptied_idle rfl
  · intro c agrees
    simp only [Agrees,call] at agrees
    rw [agrees,contents]
    exact ⟨.nil,rfl,rfl⟩
  · intro other
    simp [WriteBuffer.alive,call,ready.buffer.emptied.2 _ call]

/-- A chunk goes back to its allocator, or away. -/
theorem went_release {after : After} {left : List Slice} (ready : Ready config mem al b) (call : b.call = some (.release k (s :: left) after)) :
    Went id config k [] [] mem mem (al k) (releaseChunk config k mem (al k) s) b { b with call := some (.release k left after) } := by
  have empty := ready.buffer.emptied.1 _ _ _ call
  have held : b.held = s :: left := by simp [WriteBuffer.held,call,empty]
  have held' : ({ b with call := some (.release k left after) } : WriteBuffer).held = left := by simp [WriteBuffer.held,empty]
  have sound := ready.allocators k
  have fits : ∀ s' ∈ left, s'.len ≤ mem.cap s'.array := fun s' member => ready.buffer.fits s' (held ▸ List.mem_cons_of_mem _ member)
  have buffer : ({ b with call := some (.release k left after) } : WriteBuffer).Sound mem :=
    ⟨fun s' member => fits s' (held' ▸ member),ready.buffer.made,fun _ _ _ _ => empty,fun _ wrong => (by cases wrong)⟩
  have agrees (c : Contents) (before : Agrees mem b c) : Agrees mem { b with call := some (.release k left after) } c := by
    simpa only [Agrees,call] using before
  have others (other : Kind) (different : other ≠ k) :
      (b.alive config mem other).length ≤ (({ b with call := some (.release k left after) } : WriteBuffer).alive config mem other).length := by
    simp [WriteBuffer.alive,call,empty,different.symm]
  have alive : b.alive config mem k = (s :: left).filter fun s => mem.cap s.array = config.chunkSize k := by simp [WriteBuffer.alive,call,empty]
  have alive' : ({ b with call := some (.release k left after) } : WriteBuffer).alive config mem k =
      left.filter fun s => mem.cap s.array = config.chunkSize k := by simp [WriteBuffer.alive,empty]
  have arrays : b.arrays = s.array :: left.map Slice.array := by rw [WriteBuffer.arrays,held,List.map_cons]
  have arrays' : ({ b with call := some (.release k left after) } : WriteBuffer).arrays = left.map Slice.array := by
    rw [WriteBuffer.arrays,held']
  unfold releaseChunk
  split
  next foreign =>
    refine ⟨.refl mem,fun id member => absurd member List.not_mem_nil,.inl rfl,?_,sound,buffer,agrees,others,?_⟩
    · rw [arrays,arrays']
      exact (List.subperm_append_left _).mpr (List.sublist_cons_self _ _).subperm
    · rw [alive,alive']
      simp [foreign]
  next own =>
    have own : mem.cap s.array = config.chunkSize k := not_not.mp own
    have counted : (b.alive config mem k).length = (left.filter fun s => mem.cap s.array = config.chunkSize k).length + 1 := by
      rw [alive]
      simp [own]
    have mark : ((al k).allocated : Int) - ((al k).freed + 1 : Nat) ≤ (al k).allocHighWaterMark := by
      have := sound.mark
      omega
    have lengths := sound.free
    have bound := sound.bound
    refine ⟨.refl mem,fun id member => absurd member List.not_mem_nil,.inl rfl,?_,⟨?_,?_,?_,mark⟩,buffer,agrees,others,?_⟩
    · rw [arrays,arrays',List.nil_append]
      dsimp only
      split
      next => exact List.perm_middle.symm.subperm
      next => exact (List.subperm_append_left _).mpr (List.sublist_cons_self _ _).subperm
    · dsimp only
      split
      next =>
        intro id member
        rcases List.mem_cons.mp member with rfl | member
        · exact own
        · exact sound.sized id member
      next => exact sound.sized
    · dsimp only
      split <;> split <;> omega
    · dsimp only
      split
      next room =>
        rw [List.length_cons]
        split <;> omega
      next => split <;> omega
    · rw [counted,alive']
      dsimp only
      omega

/-- `MakeContiguous` takes its chunk. -/
theorem went_contiguous {length : Nat} {k' : Kind} (ready : Ready config mem al b) (call : b.call = some (.finish (.MakeContiguous length)))
    (small : length ≤ config.chunkSize k') :
    ∃ k fresh a' mem' b', WriteBuffer.contiguous config mem al k' length = (mem',setAllocator al k a',b') ∧
      Went id config k fresh [] mem mem' (al k) a' b b' := by
  obtain ⟨fresh,taken⟩ := allocChunk_taken (ready.allocators k') (ready.free k')
  generalize shape : allocChunk config k' mem (al k') = found at taken
  obtain ⟨s,mem',a'⟩ := found
  dsimp only at taken
  have made : WriteBuffer.contiguous config mem al k' length = (mem',setAllocator al k' a',⟨some k',[⟨s.array,length⟩],true,length,none⟩) := by
    rw [WriteBuffer.contiguous,shape]
  have empty := ready.buffer.emptied.2 _ call
  have none (k : Kind) : b.alive config mem k = [] := by simp [WriteBuffer.alive,call,empty]
  have arrays : b.arrays = [] := by simp [WriteBuffer.arrays,WriteBuffer.held,call,empty]
  have size : mem'.cap s.array = config.chunkSize k' := taken.size
  refine ⟨k',fresh,a',mem',_,made,taken.touched,fun id member => absurd member List.not_mem_nil,taken.new,?_,taken.sound,⟨?_,Nat.le_refl _,?_⟩,?_,?_,?_⟩
  · rw [arrays,List.append_nil]
    exact ((List.perm_append_singleton _ _).trans taken.owned).subperm
  · intro s' member
    rw [held_idle (b := ⟨some k',[⟨s.array,length⟩],true,length,Option.none⟩) rfl,List.mem_singleton] at member
    rw [member,size]
    exact small
  · exact emptied_idle rfl
  · intro c agrees
    simp only [Agrees,call] at agrees
    rw [agrees]
    refine ⟨?_,rfl,rfl⟩
    have long : (mem'.bytes ⟨s.array,length⟩).length = length := by
      have : mem'.cap s.array = (mem'.get s.array).length := rfl
      rw [Memory.bytes,List.length_take]
      dsimp only
      omega
    have unwritten := Known.unwritten (mem'.bytes ⟨s.array,length⟩)
    rw [long] at unwritten
    rwa [flat_singleton]
  · intro other different
    rw [none]
    exact Nat.zero_le _
  · have one : (WriteBuffer.alive config mem' k' ⟨some k',[⟨s.array,length⟩],true,length,Option.none⟩).length = 1 := by
      simp [WriteBuffer.alive,size]
    rw [one,none,taken.count.1,taken.count.2,List.length_nil]
    omega

/-- An array that is larger than all chunks. -/
theorem went_large {length : Nat} (ready : Ready config mem al b) (call : b.call = some (.finish (.MakeContiguous length))) (k : Kind) :
    Went id config k [mem.length] [] mem (mem ++ [List.replicate length 0]) (al k) (al k) b ⟨none,[⟨mem.length,length⟩],true,length,none⟩ := by
  have empty := ready.buffer.emptied.2 _ call
  have none (k : Kind) : b.alive config mem k = [] := by simp [WriteBuffer.alive,call,empty]
  have arrays : b.arrays = [] := by simp [WriteBuffer.arrays,WriteBuffer.held,call,empty]
  have touch := Touched.push mem (List.replicate length 0)
  have held : WriteBuffer.held ⟨Option.none,[⟨mem.length,length⟩],true,length,Option.none⟩ = [⟨mem.length,length⟩] := held_idle rfl
  refine ⟨touch,fun id member => absurd member List.not_mem_nil,.inr ⟨rfl,by simp⟩,?_,(ready.allocators k).kept touch (ready.free k),
    ⟨?_,Nat.le_refl _,?_⟩,?_,?_,?_⟩
  · rw [arrays,List.append_nil,WriteBuffer.arrays,held]
    exact (List.perm_append_singleton _ _).subperm
  · intro s' member
    rw [held,List.mem_singleton] at member
    have size : Memory.cap (mem ++ [List.replicate length 0]) mem.length = length :=
      (congrArg List.length (get_push mem _)).trans List.length_replicate
    exact member ▸ Nat.le_of_eq size.symm
  · exact emptied_idle rfl
  · intro c agrees
    simp only [Agrees,call] at agrees
    rw [agrees]
    refine ⟨?_,rfl,rfl⟩
    rw [flat_singleton,Memory.bytes,get_push,List.take_of_length_le (by simp)]
    have unwritten := Known.unwritten (List.replicate length 0)
    rwa [List.length_replicate] at unwritten
  · intro other different
    rw [none]
    exact Nat.zero_le _
  · rw [none]
    dsimp only [List.length_nil]
    omega

theorem setAllocator_same (al : Allocators) (k : Kind) : setAllocator al k (al k) = al := by
  funext k'
  rw [setAllocator]
  split
  next same => rw [same]
  next => rfl

/-- Every move of a call, where the allocator of one kind may change. -/
theorem went (ready : Ready config mem al b) (moved : b.go config mem al = some (mem',al',b')) :
    ∃ k fresh touched a', al' = setAllocator al k a' ∧ Went id config k fresh touched mem mem' (al k) a' b b' := by
  have quiet {mem'' : Memory} {b'' : WriteBuffer} {touched : List Nat} (eq : (mem'',al,b'') = (mem',al',b'))
      (done : Went id config .defaultAllocator [] touched mem mem'' (al .defaultAllocator) (al .defaultAllocator) b b'') :
      ∃ k fresh touched a', al' = setAllocator al k a' ∧ Went id config k fresh touched mem mem' (al k) a' b b' := by
    cases eq
    exact ⟨_,_,_,_,(setAllocator_same _ _).symm,done⟩
  have changed {found : Memory × Allocators × WriteBuffer} (eq : found = (mem',al',b'))
      (done : ∃ k fresh a' mem' b', found = (mem',setAllocator al k a',b') ∧ Went id config k fresh [] mem mem' (al k) a' b b') :
      ∃ k fresh touched a', al' = setAllocator al k a' ∧ Went id config k fresh touched mem mem' (al k) a' b b' := by
    obtain ⟨k,fresh,a',mem'',b'',shape,done⟩ := done
    cases shape.symm.trans eq
    exact ⟨k,fresh,[],a',rfl,done⟩
  unfold WriteBuffer.go at moved
  cases call : b.call with
  | none =>
    rw [call] at moved
    cases moved
  | some c =>
    rw [call] at moved
    cases c with
    | Append data =>
      dsimp only at moved
      split at moved
      next => exact changed (Option.some.inj moved) (went_grow ready call)
      next s last =>
        split at moved
        next done =>
          subst done
          exact quiet (Option.some.inj moved) (went_end ready call _)
        next =>
          split at moved
          next => exact changed (Option.some.inj moved) (went_grow ready call)
          next room => exact quiet (Option.some.inj moved) (went_copy ready call last (by split <;> omega) (by split <;> omega) _)
    | release k left after =>
      cases left with
      | nil => exact quiet (Option.some.inj moved) (went_released ready call _)
      | cons s left =>
        cases Option.some.inj moved
        exact ⟨k,[],[],_,rfl,went_release ready call⟩
    | finish after =>
      cases after with
      | Reset => exact quiet (Option.some.inj moved) (went_emptied ready call _ rfl)
      | Close => exact quiet (Option.some.inj moved) (went_emptied ready call _ rfl)
      | MakeContiguous length =>
        dsimp only at moved
        split at moved
        next small => exact changed (Option.some.inj moved) (went_contiguous ready call small)
        next =>
          split at moved
          next small => exact changed (Option.some.inj moved) (went_contiguous ready call small)
          next =>
            cases Option.some.inj moved
            exact ⟨.defaultAllocator,_,_,_,(setAllocator_same _ _).symm,went_large ready call _⟩

/-- The start of a call. -/
theorem went_begin {op : Op} (ready : Ready config mem al b) (started : b.begin op = some b') (k : Kind) :
    Went (fun c => c.after op) config k [] [] mem mem (al k) (al k) b b' := by
  unfold WriteBuffer.begin at started
  split at started
  next => cases started
  next idle =>
    have idle : b.call = none := by simpa using idle
    have held := held_idle idle
    have alive (k : Kind) : b.alive config mem k =
        (if b.alloc = some k then b.Slices else []).filter fun s => mem.cap s.array = config.chunkSize k := by
      rw [WriteBuffer.alive,idle]
      exact congrArg _ (List.append_nil _)
    have emptied (after : After) {c : Contents} : c.after (.after after) = after.contents := rfl
    cases op with
    | Append data =>
      dsimp only at started
      split at started
      next =>
        cases started
        have held' : ({ b with call := some (.Append data) } : WriteBuffer).held = b.held := (held_append rfl).trans held.symm
        refine went_kept ready k (.refl mem) (fun id member => absurd member List.not_mem_nil) ?_ ⟨?_,ready.buffer.made,?_⟩ ?_ ?_
        · rw [WriteBuffer.arrays,WriteBuffer.arrays,held']
        · rw [held']
          exact ready.buffer.fits
        · exact emptied_append rfl
        · intro c agrees
          simp only [Agrees,idle] at agrees
          exact ⟨agrees.1.append (Known.written data),agrees.2⟩
        · intro other
          rw [alive]
          exact Nat.le_of_eq (congrArg List.length (alive_append (b := { b with call := some (.Append data) }) rfl other).symm)
      next => cases started
    | after after =>
      dsimp only at started
      split at started
      next none =>
        cases started
        refine went_kept ready k (.refl mem) (fun id member => absurd member List.not_mem_nil) List.nil_subperm ⟨?_,Nat.le_refl _,?_⟩ ?_ ?_
        · exact fun s member => absurd member List.not_mem_nil
        · exact ⟨fun _ _ _ _ => rfl,fun _ _ => rfl⟩
        · exact fun c _ => emptied after
        · intro other
          rw [alive,none]
          exact Nat.zero_le _
      next k' owner =>
        cases started
        have held' : ({ b with Slices := [], made := 0, call := some (.release k' b.Slices after) } : WriteBuffer).held = b.held := held.symm
        refine went_kept ready k (.refl mem) (fun id member => absurd member List.not_mem_nil) ?_ ⟨?_,Nat.le_refl _,?_⟩ ?_ ?_
        · rw [WriteBuffer.arrays,WriteBuffer.arrays,held']
        · rw [held']
          exact ready.buffer.fits
        · exact ⟨fun _ _ _ _ => rfl,fun _ _ => rfl⟩
        · exact fun c _ => emptied after
        · intro other
          rw [alive,owner]
          simp [WriteBuffer.alive]

/-- What the caller writes goes into the first chunk. -/
theorem went_store {offset : Nat} {data : List UInt8} {rest : List Slice} (ready : Ready config mem al b) (slices : b.Slices = s :: rest)
    (inside : offset + data.length ≤ b.made) (k : Kind) :
    Went (fun c => { c with bytes := overwrite c.bytes offset (data.map some) }) config k [] [s.array] mem
      (mem.set s.array (overwrite (mem.get s.array) offset data)) (al k) (al k) b b := by
  have member : s ∈ b.held := by simp [WriteBuffer.held,slices]
  have known := ready.known s member
  have fits := ready.buffer.fits s member
  have made : b.made ≤ s.len := by simpa [WriteBuffer.first,slices] using ready.buffer.made
  have size : (overwrite (mem.get s.array) offset data).length = mem.cap s.array :=
    overwrite_length (by have : mem.cap s.array = (mem.get s.array).length := rfl; omega)
  have touch := Touched.set size
  have rest_known : ∀ s' ∈ rest, s'.array < mem.length := fun s' later => ready.known s' (by simp [WriteBuffer.held,slices,later])
  have apart : ∀ s' ∈ rest, s'.array ∉ [s.array] := by
    have nodup := ready.apart
    rw [WriteBuffer.arrays,WriteBuffer.held,slices,List.cons_append,List.map_cons,List.nodup_cons] at nodup
    intro s' later same
    rw [List.mem_singleton] at same
    exact nodup.1 (same ▸ List.mem_map_of_mem (List.mem_append_left _ later))
  refine went_kept ready k touch (fun id inside => ?_) (.refl _) ⟨?_,ready.buffer.made,ready.buffer.emptied⟩ ?_ ?_
  · rw [List.mem_singleton.mp inside]
    exact List.mem_map_of_mem member
  · intro s' inside
    rw [touch.caps _ (ready.known s' inside)]
    exact ready.buffer.fits s' inside
  · have written (more : List UInt8) : Memory.flat (mem.set s.array (overwrite (mem.get s.array) offset data)) b.Slices ++ more =
        overwrite (mem.flat b.Slices ++ more) offset data := by
      have split (mem : Memory) : mem.flat (s :: rest) = mem.bytes s ++ mem.flat rest := List.flatMap_cons
      rw [slices,split,split,touch.flat rest_known apart,Memory.bytes,get_set known,List.append_assoc,List.append_assoc,Memory.bytes]
      have : mem.cap s.array = (mem.get s.array).length := rfl
      exact overwrite_take (by omega) (by omega) _
    intro c agrees
    unfold Agrees at agrees ⊢
    split at agrees
    next idle =>
      have written := written []
      rw [List.append_nil,List.append_nil] at written
      rw [written]
      exact ⟨agrees.1.overwrite offset data,agrees.2⟩
    next data' call =>
      rw [written]
      exact ⟨agrees.1.overwrite offset data,agrees.2⟩
    next k' left after call => exact absurd (slices.symm.trans (ready.buffer.emptied.1 _ _ _ call)) (List.cons_ne_nil _ _)
    next after call => exact absurd (slices.symm.trans (ready.buffer.emptied.2 _ call)) (List.cons_ne_nil _ _)
  · exact fun other => Nat.le_of_eq (congrArg List.length (alive_touched touch ready.known).symm)

end Moves

end Vbe.Gather.Chunks
