import Vbe.Objects.Levels
import Vbe.Library.Runs

/-! Reading and seeking in an object of chunks, each of which is fetched when it is needed. A fetch may
fail, and leaves the reader as it is at that point. -/
namespace Vbe.Objects
open Vbe.Index (Bytes)
open Vbe.Library.Runs

inductive Reply
  | bytes (b : Bytes)
  | eof
  | offset (n : Int)
  | failed
deriving DecidableEq

/-- A call, with whether each fetch that it makes succeeds. -/
inductive Call
  | Read (size : Nat) (fetches : List Bool)
  | Seek (offset whence : Int) (fetch : Bool)
deriving DecidableEq

section Reader
variable (content : IndirectObjectEntry → Bytes)

namespace ObjectReader

def opened (r : ObjectReader) (st : IndirectObjectEntry) (fetches : List Bool) : Option (Bytes × Nat × List Bool) :=
  match r.currentChunkData, fetches with
  | some data, _ => some (data,r.currentChunkPosition,fetches)
  | none, true :: fetches => some (content st,0,fetches)
  | none, _ => none

/-- The loop of `Read` from the current chunk on. What was copied counts in the position even if a later fetch fails. -/
def readLoop : List IndirectObjectEntry → List Bool → ObjectReader → Nat → Option Bytes × ObjectReader
  | [], _, r, _ => (some [],r)
  | st :: ahead, fetches, r, remaining =>
    match r.opened content st fetches with
    | none => (none,r)
    | some (data,position,fetches) =>
      let toCopy := min (data.length - position) remaining
      let copied := (data.drop position).take toCopy
      if toCopy = remaining then
        (some copied,{ r with
          currentPosition := r.currentPosition + toCopy
          currentChunkData := some data
          currentChunkPosition := position + toCopy })
      else
        let rest := readLoop ahead fetches { r with
          currentPosition := r.currentPosition + toCopy
          currentChunkData := none
          currentChunkPosition := position + toCopy
          currentChunkIndex := r.currentChunkIndex + 1 } (remaining - toCopy)
        (rest.1.map (copied ++ ·),rest.2)

def ReadOnce (r : ObjectReader) (size : Nat) (fetches : List Bool) : Reply × ObjectReader :=
  if r.currentPosition ≥ r.totalLength then (.eof,r)
  else if size = 0 then (.eof,r)
  else
    match readLoop content (r.seekTable.drop r.currentChunkIndex) fetches r size with
    | (none,r) => (.failed,r)
    | (some [],r) => (.eof,r)
    | (some (b :: bs),r) => (.bytes (b :: bs),r)

/-- The loop over the interval from `left` up to, but not including, `stop`. -/
def findFrom (seekTable : List IndirectObjectEntry) (offset : Int) : Nat → Nat → Nat → Option (Nat × IndirectObjectEntry)
  | 0, _, _ => none
  | fuel + 1, left, stop =>
    if left < stop then
      let middle := (left + (stop - 1)) / 2
      match seekTable[middle]? with
      | none => none
      | some st =>
        if offset < st.Start then findFrom seekTable offset fuel left middle
        else if offset ≥ st.endOffset then findFrom seekTable offset fuel (middle + 1) stop
        else some (middle,st)
    else none

def findChunkIndexForOffset (seekTable : List IndirectObjectEntry) (offset : Int) : Option (Nat × IndirectObjectEntry) :=
  findFrom seekTable offset (seekTable.length + 1) 0 seekTable.length

def seekTo (r : ObjectReader) (offset : Int) (fetch : Bool) : Reply × ObjectReader :=
  if offset ≥ r.totalLength then
    (.offset offset,{ r with currentChunkIndex := r.seekTable.length, currentChunkData := none, currentPosition := offset })
  else
    match findChunkIndexForOffset r.seekTable offset with
    | none => (.failed,r)
    | some (index,st) =>
      let r := if index ≠ r.currentChunkIndex then { r with currentChunkData := none, currentChunkIndex := index } else r
      let position := (offset - st.Start).toNat
      match r.currentChunkData with
      | some _ => (.offset offset,{ r with currentChunkPosition := position, currentPosition := offset })
      | none =>
        if fetch then
          (.offset offset,{ r with
            currentChunkData := some (content st)
            currentChunkPosition := position
            currentPosition := offset })
        else (.failed,r)

/-- What is neither `io.SeekCurrent` nor `io.SeekEnd` counts from the start. -/
def Seek (r : ObjectReader) (offset whence : Int) (fetch : Bool) : Reply × ObjectReader :=
  if whence = 1 then r.seekTo content (r.currentPosition + offset) fetch
  else if whence = 2 then r.seekTo content (r.totalLength + offset) fetch
  else r.seekTo content offset fetch

def call (r : ObjectReader) : Call → Reply × ObjectReader
  | .Read size fetches => r.ReadOnce content size fetches
  | .Seek offset whence fetch => r.Seek content offset whence fetch

end ObjectReader

/-- A reader over bytes in memory, as `bytes.Reader`. -/
def inMemory (flat : Bytes) (position : Int) : Call → Reply × Int
  | .Read size _ =>
    if position ≥ flat.length then (.eof,position)
    else
      let b := (flat.drop position.toNat).take size
      (.bytes b,position + b.length)
  | .Seek offset whence _ =>
    if whence ≠ 0 ∧ whence ≠ 1 ∧ whence ≠ 2 then (.failed,position)
    else
      let abs := if whence = 1 then position + offset else if whence = 2 then flat.length + offset else offset
      if abs < 0 then (.failed,position) else (.offset abs,abs)

end Reader

section Tables
variable {content : IndirectObjectEntry → Bytes} {table : List IndirectObjectEntry}

/-- The entries follow each other from the start, and each is as long as what it reads as. -/
def Contiguous (content : IndirectObjectEntry → Bytes) : Int → List IndirectObjectEntry → Prop
  | _, [] => True
  | start, e :: table => e.Start = start ∧ e.Length = (content e).length ∧ Contiguous content (start + e.Length) table

theorem Contiguous.entry {start : Int} (contiguous : Contiguous content start table) {i : Nat} {e : IndirectObjectEntry}
    (found : table[i]? = some e) : e.Start = start + ((table.take i).flatMap content).length ∧ e.Length = (content e).length := by
  induction table generalizing start i with
  | nil => simp at found
  | cons e' table ih =>
    obtain ⟨first,length,rest⟩ := contiguous
    cases i with
    | zero =>
      obtain rfl : e' = e := by simpa using found
      exact ⟨by simpa using first,length⟩
    | succ i =>
      obtain ⟨start',length'⟩ := ih rest (by simpa using found)
      refine ⟨?_,length'⟩
      rw [start',List.take_succ_cons,List.flatMap_cons,List.length_append,length]
      push_cast
      ring

theorem Contiguous.total {start : Int} (contiguous : Contiguous content start table) {last : IndirectObjectEntry}
    (ends : table.getLast? = some last) : last.endOffset = start + (table.flatMap content).length := by
  obtain ⟨before,rfl⟩ := List.getLast?_eq_some_iff.mp ends
  have found : (before ++ [last])[before.length]? = some last := by simp
  obtain ⟨first,length⟩ := contiguous.entry found
  rw [List.take_left] at first
  rw [IndirectObjectEntry.endOffset,first,length,List.flatMap_append,List.flatMap_singleton,List.length_append]
  push_cast
  ring

/-- What lies before a later entry is at least as long. -/
theorem length_take_le {i j : Nat} (before : i ≤ j) :
    ((table.take i).flatMap content).length ≤ ((table.take j).flatMap content).length := by
  have split : table.take j = table.take i ++ (table.drop i).take (j - i) := by
    rw [← List.take_add,Nat.add_sub_cancel' before]
  rw [split,List.flatMap_append,List.length_append]
  exact Nat.le_add_right _ _

theorem length_take_succ {i : Nat} {e : IndirectObjectEntry} (found : table[i]? = some e) :
    ((table.take (i + 1)).flatMap content).length = ((table.take i).flatMap content).length + (content e).length := by
  obtain ⟨inside,rfl⟩ := List.getElem?_eq_some_iff.mp found
  rw [List.take_succ_eq_append_getElem inside,List.flatMap_append,List.length_append,List.flatMap_singleton]

/-- An interval that holds the offset leads to its entry. -/
theorem findFrom_some (contiguous : Contiguous content 0 table) {offset : Int} (fuel left stop : Nat) (enough : stop - left < fuel)
    (bound : stop ≤ table.length) (above : ((table.take left).flatMap content).length ≤ offset)
    (below : offset < ((table.take stop).flatMap content).length) :
    ∃ i e, ObjectReader.findFrom table offset fuel left stop = some (i,e) ∧ table[i]? = some e ∧ e.Start ≤ offset ∧
      offset < e.Start + (content e).length := by
  induction fuel generalizing left stop with
  | zero => omega
  | succ fuel ih =>
    have open' : left < stop := by
      by_contra closed
      have shorter : ((table.take stop).flatMap content).length ≤ ((table.take left).flatMap content).length :=
        length_take_le (by omega)
      omega
    have middle : (left + (stop - 1)) / 2 < stop := by omega
    have low : left ≤ (left + (stop - 1)) / 2 := by omega
    generalize same : (left + (stop - 1)) / 2 = m at middle low
    obtain ⟨e,found⟩ : ∃ e, table[m]? = some e := ⟨_,List.getElem?_eq_getElem (by omega)⟩
    obtain ⟨start,length⟩ := contiguous.entry found
    have next : ((table.take (m + 1)).flatMap content).length = _ := length_take_succ found
    simp only [ObjectReader.findFrom,if_pos open',same,found]
    by_cases early : offset < e.Start
    · simp only [if_pos early]
      exact ih left m (by omega) (by omega) above (by omega)
    · by_cases late : offset ≥ e.endOffset
      · simp only [if_neg early,if_pos late]
        rw [IndirectObjectEntry.endOffset] at late
        exact ih (m + 1) stop (by omega) bound (by omega) below
      · simp only [if_neg early,if_neg late]
        rw [IndirectObjectEntry.endOffset] at late
        exact ⟨m,e,rfl,found,by omega,by omega⟩

/-- Offsets that are negative are in no chunk. -/
theorem findFrom_none (contiguous : Contiguous content 0 table) {offset : Int} (negative : offset < 0) (fuel left stop : Nat) :
    ObjectReader.findFrom table offset fuel left stop = none := by
  induction fuel generalizing left stop with
  | zero => rfl
  | succ fuel ih =>
    unfold ObjectReader.findFrom
    split
    next =>
      dsimp only
      split
      next => rfl
      next st found =>
        obtain ⟨start,_⟩ := contiguous.entry found
        rw [if_pos (by omega)]
        exact ih left _
    next => rfl

theorem findChunkIndexForOffset_some (contiguous : Contiguous content 0 table) {offset : Int} (positive : 0 ≤ offset)
    (inside : offset < (table.flatMap content).length) :
    ∃ i e, ObjectReader.findChunkIndexForOffset table offset = some (i,e) ∧ table[i]? = some e ∧ e.Start ≤ offset ∧
      offset < e.Start + (content e).length :=
  findFrom_some contiguous _ 0 table.length (by omega) le_rfl (by simpa using positive) (by simpa using inside)

end Tables

section InPlace
variable (content : IndirectObjectEntry → Bytes)

namespace ObjectReader

/-- The bytes from the current chunk and position on. -/
def ahead (r : ObjectReader) : Bytes := r.unread ++ r.unopened.flatMap content

/-- What can be copied before the first fetch that fails. -/
def available (r : ObjectReader) (fetches : List Bool) : Bytes :=
  r.unread ++ (r.unopened.take (fetches.takeWhile id).length).flatMap content

def target (r : ObjectReader) (offset whence : Int) : Int :=
  if whence = 1 then r.currentPosition + offset else if whence = 2 then r.totalLength + offset else offset

/-- A `Read` fails on a chunk after it has copied from others, or a `Seek` fails to fetch the chunk that it has moved to. -/
def BreaksOff (r : ObjectReader) : Call → Prop
  | .Read size fetches => (fetches.takeWhile id).length < r.unopened.length ∧ 0 < (r.available content fetches).length ∧
      (r.available content fetches).length < size
  | .Seek offset whence fetch => fetch = false ∧
      ∃ chunk ∈ findChunkIndexForOffset r.seekTable (r.target offset whence), chunk.1 ≠ r.currentChunkIndex

/-- The reader reads the table, and what is open is a chunk of it. -/
structure Sound (table : List IndirectObjectEntry) (r : ObjectReader) : Prop where
  seeks : r.seekTable = table
  total : r.totalLength = (table.flatMap content).length
  open_chunk : ∀ data, r.currentChunkData = some data → ∃ e, r.seekTable[r.currentChunkIndex]? = some e ∧ data = content e

/-- Chunk and position in it are where the position is in the flat content. -/
structure InPlace (table : List IndirectObjectEntry) (r : ObjectReader) (position : Int) : Prop where
  current : r.currentPosition = position
  ahead : position < r.totalLength → r.ahead content = (table.flatMap content).drop position.toNat

variable {content} {table : List IndirectObjectEntry} {r : ObjectReader} {position : Int}

theorem Sound.opened_some (sound : Sound content table r) {st : IndirectObjectEntry} {ahead : List IndirectObjectEntry}
    (next : r.seekTable.drop r.currentChunkIndex = st :: ahead) {fetches fetches' : List Bool} {data : Bytes} {p : Nat}
    (opened : r.opened content st fetches = some (data,p,fetches')) :
    data = content st ∧ r.ahead content = data.drop p ++ ahead.flatMap content ∧
      r.available content fetches = data.drop p ++ (ahead.take (fetches'.takeWhile id).length).flatMap content ∧
      ((fetches'.takeWhile id).length < ahead.length → (fetches.takeWhile id).length < r.unopened.length) := by
  have rest : r.seekTable.drop (r.currentChunkIndex + 1) = ahead := by
    rw [← List.drop_drop,next]
    rfl
  have here : r.seekTable[r.currentChunkIndex]? = some st := by
    rw [← List.head?_drop,next]
    rfl
  unfold ObjectReader.opened at opened
  split at opened
  next data' fetches some =>
    obtain ⟨e,found,rfl⟩ := sound.open_chunk _ some
    obtain rfl : st = e := Option.some.inj (here.symm.trans found)
    cases opened
    simp [ObjectReader.ahead,available,unread,some,unopened_some some,rest]
  next fetches closed =>
    cases opened
    simp [ObjectReader.ahead,available,unread,closed,unopened_none closed,next]
  next => contradiction

theorem opened_none {st : IndirectObjectEntry} {ahead : List IndirectObjectEntry}
    (next : r.seekTable.drop r.currentChunkIndex = st :: ahead) {fetches : List Bool}
    (opened : r.opened content st fetches = none) :
    r.available content fetches = [] ∧ (fetches.takeWhile id).length < r.unopened.length := by
  rw [ObjectReader.opened.eq_def] at opened
  cases closed : r.currentChunkData with
  | some data => simp [closed] at opened
  | none =>
    match fetches with
    | [] => simp [available,unread,closed,unopened_none closed,next]
    | false :: _ => simp [available,unread,closed,unopened_none closed,next]
    | true :: _ => simp [closed] at opened

/-- A loop that ends has copied what is ahead, and one that fails has copied what was available. -/
theorem Sound.readLoop (sound : Sound content table r) (entries : List IndirectObjectEntry) (fetches : List Bool) {remaining : Nat}
    (positive : 0 < remaining) (due : r.seekTable.drop r.currentChunkIndex = entries) {out : Option Bytes} {r' : ObjectReader}
    (run : ObjectReader.readLoop content entries fetches r remaining = (out,r')) :
    Sound content table r' ∧ ∃ copied, r.ahead content = copied ++ r'.ahead content ∧
      r'.currentPosition = r.currentPosition + copied.length ∧
      (out = none → copied = r.available content fetches ∧ copied.length < remaining ∧
        (fetches.takeWhile id).length < r.unopened.length) ∧
      ∀ b, out = some b → b = copied ∧ b = (r.ahead content).take remaining := by
  induction entries generalizing r fetches remaining out r' with
  | nil =>
    have closed : r.currentChunkData = none := by
      by_contra opened
      obtain ⟨data,some⟩ := Option.ne_none_iff_exists'.mp opened
      obtain ⟨e,found,_⟩ := sound.open_chunk data some
      have inside := (List.getElem?_eq_some_iff.mp found).1
      have outside := List.drop_eq_nil_iff.mp due
      omega
    have empty : r.ahead content = [] := by simp [ahead,unread,closed,unopened_none closed,due]
    cases run
    exact ⟨sound,[],rfl,by simp,by simp,by simp [empty]⟩
  | cons st entries ih =>
    rw [ObjectReader.readLoop] at run
    cases opened : r.opened content st fetches with
    | none =>
      rw [opened] at run
      cases run
      obtain ⟨nothing,short⟩ := opened_none due opened
      exact ⟨sound,[],rfl,by simp,fun _ => ⟨nothing.symm,positive,short⟩,by simp⟩
    | some chunk =>
      obtain ⟨data,p,fetches'⟩ := chunk
      obtain ⟨rfl,before,available,more⟩ := sound.opened_some due opened
      have here : r.seekTable[r.currentChunkIndex]? = some st := by
        rw [← List.head?_drop,due]
        rfl
      have rest : r.seekTable.drop (r.currentChunkIndex + 1) = entries := by
        rw [← List.drop_drop,due]
        rfl
      rw [opened] at run
      dsimp only at run
      split at run
      next full =>
        -- the buffer is full and the chunk stays open
        cases run
        have fits : remaining ≤ ((content st).drop p).length := by
          rw [List.length_drop]
          omega
        have length : (((content st).drop p).take remaining).length = remaining := List.length_take_of_le fits
        refine ⟨⟨sound.seeks,sound.total,?_⟩,((content st).drop p).take remaining,?_,by simp [full,length],by simp,?_⟩
        · rintro data some
          cases some
          exact ⟨st,here,rfl⟩
        · rw [before]
          simp only [ahead,unread,unopened,rest,full]
          rw [← List.drop_drop,← List.append_assoc,List.take_append_drop]
        · intro b ended
          cases ended
          rw [full,before,List.take_append_of_le_length fits]
          exact ⟨rfl,rfl⟩
      next partial' =>
        -- the chunk is used up
        have short : min ((content st).length - p) remaining = (content st).length - p := by omega
        have all : ((content st).drop p).length = (content st).length - p := List.length_drop
        rw [short,List.take_of_length_le all.le] at run
        generalize inner : ObjectReader.readLoop content entries fetches' { r with
          currentPosition := r.currentPosition + ((content st).length - p : Nat)
          currentChunkData := none
          currentChunkPosition := p + ((content st).length - p)
          currentChunkIndex := r.currentChunkIndex + 1 } (remaining - ((content st).length - p)) = later at run
        obtain ⟨out',r''⟩ := later
        obtain ⟨sound',copied,after,position,failing,ending⟩ := ih (r := { r with
          currentPosition := r.currentPosition + ((content st).length - p : Nat)
          currentChunkData := none
          currentChunkPosition := p + ((content st).length - p)
          currentChunkIndex := r.currentChunkIndex + 1 }) ⟨sound.seeks,sound.total,by simp⟩ fetches' (by omega) rest inner
        simp only [ahead,ObjectReader.available,unread,unopened,rest,List.nil_append] at after failing ending
        cases run
        refine ⟨sound',(content st).drop p ++ copied,?_,?_,?_,?_⟩
        · rw [before,after,List.append_assoc]
          rfl
        · rw [position,List.length_append,all]
          push_cast
          ring
        · intro failed
          obtain ⟨same,less,unfetched⟩ := failing (by simpa using failed)
          rw [available,List.length_append,all,← same]
          exact ⟨rfl,by omega,more unfetched⟩
        · intro b ended
          obtain ⟨b',ended',rfl⟩ := Option.map_eq_some_iff.mp ended
          obtain ⟨rfl,same⟩ := ending b' ended'
          refine ⟨rfl,?_⟩
          rw [before,List.take_append,List.take_of_length_le (by omega),all,← same]

/-- What lies from an offset in a chunk on. -/
theorem drop_inside {i : Nat} {e : IndirectObjectEntry} (found : table[i]? = some e) {p : Nat} (inside : p ≤ (content e).length) :
    (table.flatMap content).drop (((table.take i).flatMap content).length + p) =
      (content e).drop p ++ (table.drop (i + 1)).flatMap content := by
  obtain ⟨bound,rfl⟩ := List.getElem?_eq_some_iff.mp found
  have split : table.flatMap content =
      (table.take i).flatMap content ++ (content table[i] ++ (table.drop (i + 1)).flatMap content) := by
    rw [← List.flatMap_cons,← List.drop_eq_getElem_cons bound,← List.flatMap_append,List.take_append_drop]
  rw [split,List.drop_append,List.drop_of_length_le (by omega),List.nil_append,Nat.add_sub_cancel_left,
    List.drop_append_of_le_length inside]

/-- The reader that has the chunk of an offset open at its place. -/
theorem Sound.placed (contiguous : Contiguous content 0 table) (sound : Sound content table r) {i : Nat} {e : IndirectObjectEntry}
    (found : table[i]? = some e) {offset : Int} (low : e.Start ≤ offset) (high : offset < e.Start + (content e).length)
    {r' : ObjectReader} (placed : r' = { r with
      currentChunkIndex := i
      currentChunkData := some (content e)
      currentChunkPosition := (offset - e.Start).toNat
      currentPosition := offset }) :
    Sound content table r' ∧ 0 ≤ offset ∧ InPlace content table r' offset := by
  subst placed
  obtain ⟨start,_⟩ := contiguous.entry found
  have split : offset.toNat = ((table.take i).flatMap content).length + (offset - e.Start).toNat := by omega
  refine ⟨⟨sound.seeks,sound.total,?_⟩,by omega,rfl,fun _ => ?_⟩
  · rintro data some
    cases some
    exact ⟨e,sound.seeks ▸ found,rfl⟩
  · rw [split,drop_inside found (by omega)]
    simp [ahead,unread,unopened,sound.seeks]

/-- A seek fails in place unless it has moved to a chunk that it cannot fetch. -/
theorem Sound.seekTo (contiguous : Contiguous content 0 table) (sound : Sound content table r) (offset : Int) (fetch : Bool)
    {reply : Reply} {r' : ObjectReader} (called : r.seekTo content offset fetch = (reply,r')) :
    Sound content table r' ∧
      ((reply = .failed ∧ r'.currentPosition = r.currentPosition ∧
          (r' = r ∨ fetch = false ∧ ∃ chunk ∈ findChunkIndexForOffset r.seekTable offset, chunk.1 ≠ r.currentChunkIndex)) ∨
        (reply = .offset offset ∧ 0 ≤ offset ∧ InPlace content table r' offset)) := by
  have total := sound.total
  have seeks := sound.seeks
  rw [ObjectReader.seekTo] at called
  by_cases beyond : offset ≥ r.totalLength
  · rw [if_pos beyond] at called
    cases called
    exact ⟨⟨seeks,total,nofun⟩,.inr ⟨rfl,by omega,rfl,fun inside => absurd inside (not_lt.mpr beyond)⟩⟩
  · rw [if_neg beyond] at called
    by_cases negative : offset < 0
    · have none : findChunkIndexForOffset r.seekTable offset = none := findFrom_none (seeks ▸ contiguous) negative _ _ _
      rw [none] at called
      cases called
      exact ⟨sound,.inl ⟨rfl,rfl,.inl rfl⟩⟩
    · obtain ⟨i,e,search,found,low,high⟩ := @findChunkIndexForOffset_some content r.seekTable (seeks ▸ contiguous) offset
        (not_lt.mp negative) (by rw [seeks]; omega)
      rw [search] at called
      dsimp only at called
      have placed := @Sound.placed content table r contiguous sound i e (seeks ▸ found) offset low high r'
      by_cases moves : i ≠ r.currentChunkIndex
      · rw [if_pos moves] at called
        cases fetch with
        | false =>
          cases called
          exact ⟨⟨seeks,total,nofun⟩,.inl ⟨rfl,rfl,.inr ⟨rfl,_,search,moves⟩⟩⟩
        | true =>
          cases called
          exact (placed rfl).imp_right fun there => .inr ⟨rfl,there⟩
      · rw [if_neg moves] at called
        obtain rfl : i = r.currentChunkIndex := not_not.mp moves
        cases opened : r.currentChunkData with
        | some data =>
          obtain ⟨e',found',rfl⟩ := sound.open_chunk data opened
          obtain rfl : e = e' := Option.some.inj (found.symm.trans found')
          rw [opened] at called
          cases called
          exact (placed rfl).imp_right fun there => .inr ⟨rfl,there⟩
        | none =>
          rw [opened] at called
          cases fetch with
          | false =>
            cases called
            exact ⟨sound,.inl ⟨rfl,rfl,.inl rfl⟩⟩
          | true =>
            cases called
            exact (placed rfl).imp_right fun there => .inr ⟨rfl,there⟩

/-- A read in place reads on, or fails in place unless it breaks off. -/
theorem Sound.ReadOnce (sound : Sound content table r) (place : InPlace content table r position) (least : 0 ≤ position)
    {size : Nat} (room : 0 < size) (fetches : List Bool) {reply : Reply} {r' : ObjectReader}
    (called : r.ReadOnce content size fetches = (reply,r')) :
    Sound content table r' ∧
      (reply = .failed ∧ (InPlace content table r' position ∨ r.BreaksOff content (.Read size fetches)) ∨
        reply = (inMemory (table.flatMap content) position (.Read size fetches)).1 ∧
          InPlace content table r' (inMemory (table.flatMap content) position (.Read size fetches)).2) := by
  obtain ⟨current,ahead⟩ := place
  have total := sound.total
  rw [ObjectReader.ReadOnce] at called
  by_cases ended : r.currentPosition ≥ r.totalLength
  · rw [if_pos ended] at called
    cases called
    rw [inMemory,if_pos (by omega)]
    exact ⟨sound,.inr ⟨rfl,current,fun inside => absurd inside (by omega)⟩⟩
  · rw [if_neg ended,if_neg room.ne'] at called
    have inside : position < r.totalLength := by omega
    generalize loop : ObjectReader.readLoop content _ fetches r size = result at called
    obtain ⟨out,r''⟩ := result
    obtain ⟨sound',copied,after,moved,failing,ending⟩ := sound.readLoop _ fetches room rfl loop
    cases out with
    | none =>
      cases called
      obtain ⟨same,short,unfetched⟩ := failing rfl
      refine ⟨sound',.inl ⟨rfl,?_⟩⟩
      cases copied with
      | nil => exact .inl ⟨by simpa [moved] using current,fun _ => by rw [← ahead inside,after]; rfl⟩
      | cons b copied => exact .inr ⟨unfetched,by simp [← same],same ▸ short⟩
    | some bytes =>
      obtain ⟨rfl,taken⟩ := ending bytes rfl
      rw [ahead inside] at taken after
      have some : bytes ≠ [] := by
        rintro rfl
        have length := congrArg List.length taken
        rw [List.length_take,List.length_drop,List.length_nil] at length
        omega
      obtain ⟨c,bytes,rfl⟩ := List.exists_cons_of_ne_nil some
      cases called
      rw [inMemory,if_neg (by omega),← taken]
      refine ⟨sound',.inr ⟨rfl,by rw [moved,current],fun _ => ?_⟩⟩
      have split : (position + (c :: bytes).length).toNat = position.toNat + (c :: bytes).length := by omega
      rw [split,← List.drop_drop,after,List.drop_left]

end ObjectReader

/-- A reader of an object, the position that a reader over its content in memory has after the calls that succeeded, and
whether a `Read` or a `Seek` has broken off since a seek that makes up for it. -/
structure Session where
  reader : ObjectReader
  position : Int
  advanced : Bool
  displaced : Bool

instance decidableBreaksOff (r : ObjectReader) : ∀ c, Decidable (r.BreaksOff content c)
  | .Read _ _ => inferInstanceAs (Decidable (_ ∧ _ ∧ _))
  | .Seek offset whence fetch =>
    decidable_of_iff (fetch = false ∧ ((ObjectReader.findChunkIndexForOffset r.seekTable (r.target offset whence)).any
      fun chunk => chunk.1 ≠ r.currentChunkIndex)) (by simp [ObjectReader.BreaksOff,Option.any_eq_true])

namespace Session

def opened (table : List IndirectObjectEntry) (last : IndirectObjectEntry) : Session where
  reader := newObjectReader table last
  position := 0
  advanced := false
  displaced := false

/-- What a call that breaks off has left behind stays until a seek succeeds, from the start or the end if the position is
wrong. -/
def step (flat : Bytes) (s : Session) (c : Call) : Option Session :=
  let (reply,reader) := s.reader.call content c
  let broken := decide (s.reader.BreaksOff content c)
  some (match c with
    | .Read _ _ => {
        reader := reader
        position := if reply = .failed then s.position else (inMemory flat s.position c).2
        advanced := s.advanced || broken
        displaced := s.displaced }
    | .Seek _ whence _ => {
        reader := reader
        position := if reply = .failed then s.position else (inMemory flat s.position c).2
        advanced := s.advanced && (reply = .failed || whence = 1)
        displaced := (s.displaced || broken) && reply = .failed })

/-- Buffers are not empty, a `Seek` is from the start, the current position or the end, and a position that is not that of the
bytes to read next is not read from, or counted from. -/
def Careful (s : Session) : Call → Prop
  | .Read size _ => 0 < size ∧ s.advanced = false ∧ (s.displaced = false ∨ s.reader.totalLength ≤ s.reader.currentPosition)
  | .Seek _ whence _ => whence = 0 ∨ whence = 1 ∧ s.advanced = false ∨ whence = 2

instance decidableCareful (s : Session) : ∀ c, Decidable (Careful s c)
  | .Read _ _ => inferInstanceAs (Decidable (_ ∧ _ ∧ _))
  | .Seek _ _ _ => inferInstanceAs (Decidable (_ ∨ _))

/-- The reader is sound, and in place as long as nothing has broken off. -/
structure Tracks (table : List IndirectObjectEntry) (s : Session) : Prop where
  sound : s.reader.Sound content table
  least : 0 ≤ s.position
  current : s.advanced = false → s.reader.currentPosition = s.position
  place : s.advanced = false → s.displaced = false → s.reader.InPlace content table s.position

variable {content} {table : List IndirectObjectEntry} {s t : Session}

/-- Where in the content a seek goes that the reader in memory does not refuse. -/
theorem inMemory_Seek {flat : Bytes} {position offset whence : Int} (valid : whence = 0 ∨ whence = 1 ∨ whence = 2)
    (fetch : Bool) {place : Int} (there : place = if whence = 1 then position + offset else if whence = 2 then flat.length + offset else offset)
    (positive : 0 ≤ place) : inMemory flat position (.Seek offset whence fetch) = (.offset place,place) := by
  rw [inMemory,if_neg (by omega)]
  dsimp only
  rw [← there,if_neg (by omega)]

theorem Seek_eq (r : ObjectReader) (offset whence : Int) (fetch : Bool) :
    r.Seek content offset whence fetch = r.seekTo content (r.target offset whence) fetch := by
  rw [ObjectReader.Seek,ObjectReader.target]
  split
  next => rfl
  next => split <;> rfl

theorem inMemory_Read (flat : Bytes) {position : Int} (least : 0 ≤ position) (size : Nat) (fetches : List Bool) :
    (inMemory flat position (.Read size fetches)).1 ≠ .failed ∧ 0 ≤ (inMemory flat position (.Read size fetches)).2 := by
  rw [inMemory]
  split
  next => exact ⟨nofun,least⟩
  next => exact ⟨nofun,by dsimp only; omega⟩

/-- A call that fails leaves a session that tracks, and one that succeeds is answered as in memory. -/
theorem Tracks.step (contiguous : Contiguous content 0 table) (tracks : Tracks content table s) {c : Call} (careful : Careful s c)
    (taken : Session.step content (table.flatMap content) s c = some t) :
    Tracks content table t ∧
      ((s.reader.call content c).1 ≠ .failed → (s.reader.call content c).1 = (inMemory (table.flatMap content) s.position c).1) := by
  cases c with
  | Read size fetches =>
    obtain ⟨room,still,here⟩ := careful
    have current := tracks.current still
    have place : s.reader.InPlace content table s.position := by
      rcases here with here | here
      · exact tracks.place still here
      · exact ⟨current,fun inside => absurd inside (by omega)⟩
    generalize called : s.reader.ReadOnce content size fetches = result
    obtain ⟨reply,reader⟩ := result
    obtain ⟨sound,outcome⟩ := tracks.sound.ReadOnce place tracks.least room fetches called
    rw [Session.step,ObjectReader.call,called] at taken
    rw [ObjectReader.call,called]
    cases taken
    rcases outcome with ⟨rfl,kept⟩ | ⟨rfl,reads⟩
    · refine ⟨⟨sound,tracks.least,?_,?_⟩,fun answered => absurd rfl answered⟩
      all_goals
        intro unbroken
        have whole : ¬ s.reader.BreaksOff content (.Read size fetches) := by simpa [still] using unbroken
        have kept := kept.resolve_right whole
      · exact kept.current
      · exact fun _ => kept
    · obtain ⟨answered,least⟩ := inMemory_Read (table.flatMap content) tracks.least size fetches
      refine ⟨⟨sound,?_,fun _ => ?_,fun _ _ => ?_⟩,fun _ => rfl⟩ <;> dsimp only <;> rw [if_neg answered]
      · exact least
      · exact reads.current
      · exact reads
  | Seek offset whence fetch =>
    have valid : whence = 0 ∨ whence = 1 ∨ whence = 2 := by
      rcases careful with start | ⟨current,_⟩ | ending <;> simp [*]
    generalize called : s.reader.seekTo content (s.reader.target offset whence) fetch = result
    obtain ⟨reply,reader⟩ := result
    obtain ⟨sound,outcome⟩ := tracks.sound.seekTo contiguous _ fetch called
    rw [Session.step,ObjectReader.call,Seek_eq,called] at taken
    rw [ObjectReader.call,Seek_eq,called]
    cases taken
    rcases outcome with ⟨rfl,moved,kept⟩ | ⟨rfl,positive,place⟩
    · refine ⟨⟨sound,tracks.least,?_,?_⟩,fun answered => absurd rfl answered⟩
      · intro still
        have still : s.advanced = false := by simpa using still
        dsimp only
        rw [moved,if_pos rfl,tracks.current still]
      · intro still unbroken
        have unmoved : s.advanced = false := by simpa using still
        have ⟨here,whole⟩ : s.displaced = false ∧ ¬ s.reader.BreaksOff content (.Seek offset whence fetch) := by
          simpa using unbroken
        obtain rfl := kept.resolve_right whole
        exact tracks.place unmoved here
    · have there : s.reader.target offset whence = if whence = 1 then s.position + offset else
          if whence = 2 then ((table.flatMap content).length : Int) + offset else offset := by
        rw [ObjectReader.target,tracks.sound.total]
        rcases careful with rfl | ⟨rfl,still⟩ | rfl
        · rfl
        · rw [tracks.current still]
        · rfl
      have same := inMemory_Seek valid fetch there positive
      rw [same]
      refine ⟨⟨sound,?_,fun _ => ?_,fun _ _ => ?_⟩,fun _ => rfl⟩ <;> dsimp only <;> rw [if_neg (by nofun)]
      · exact positive
      · exact place.current
      · exact place

theorem opened_tracks (contiguous : Contiguous content 0 table) {last : IndirectObjectEntry} (ends : table.getLast? = some last) :
    Tracks content table (opened table last) := by
  refine ⟨⟨rfl,(contiguous.total ends).trans (zero_add _),nofun⟩,le_rfl,fun _ => rfl,fun _ _ => ⟨rfl,fun _ => ?_⟩⟩
  rfl

end Session

/-- From the opening of an object on, with calls that are careful about what has broken off, whatever a call that does not fail
returns is what a reader over the content in memory returns at its own position. -/
theorem reads_as_in_memory {table : List IndirectObjectEntry} (contiguous : Contiguous content 0 table) {last : IndirectObjectEntry}
    (ends : table.getLast? = some last) {calls : List Call} {c : Call} {s : Session}
    (careful : Meets (Session.step content (table.flatMap content)) Session.Careful (Session.opened table last) (calls ++ [c]))
    (reached : run (Session.step content (table.flatMap content)) (Session.opened table last) calls = some s)
    (answered : (s.reader.call content c).1 ≠ .failed) :
    (s.reader.call content c).1 = (inMemory (table.flatMap content) s.position c).1 := by
  obtain ⟨before,now⟩ := careful.append reached
  have tracks : s.Tracks content table :=
    invariant (fun s c t tracks careful taken => (Session.Tracks.step contiguous tracks careful taken).1)
      (Session.opened_tracks contiguous ends) before reached
  exact (tracks.step contiguous now.1 rfl).2 answered

end InPlace

section Halves

/-- An object of two chunks of two bytes. -/
def half (start : Int) : IndirectObjectEntry := ⟨start,2,EmptyID⟩

def halves (e : IndirectObjectEntry) : Bytes := if e.Start = 0 then [1,2] else [3,4]

theorem halves_contiguous : Contiguous halves 0 [half 0,half 2] := ⟨rfl,rfl,rfl,rfl,trivial⟩

/-- A seek makes up for one that has broken off. -/
theorem reads_as_in_memory_halves : ∃ s,
    run (Session.step halves ([half 0,half 2].flatMap halves)) (Session.opened [half 0,half 2] (half 2))
      [.Seek 2 0 false,.Seek 1 0 true] = some s ∧
    (s.reader.call halves (.Read 3 [true])).1 = (inMemory ([half 0,half 2].flatMap halves) s.position (.Read 3 [true])).1 :=
  ⟨_,rfl,@reads_as_in_memory halves _ halves_contiguous (half 2) rfl [.Seek 2 0 false,.Seek 1 0 true] _ _ (by decide) rfl (by decide)⟩

/-- After a read that has copied a chunk and failed at the next, and after a seek that has failed at its chunk, the next read
returns bytes from elsewhere. -/
theorem reads_elsewhere : Contiguous halves 0 [half 0,half 2] ∧
    (∃ s, run (Session.step halves [1,2,3,4]) (Session.opened [half 0,half 2] (half 2)) [.Read 4 [true,false]] = some s ∧
      (s.reader.call halves (.Read 4 [true])).1 = .bytes [3,4] ∧
      (inMemory [1,2,3,4] s.position (.Read 4 [true])).1 = .bytes [1,2,3,4]) ∧
    ∃ s, run (Session.step halves [1,2,3,4]) (Session.opened [half 0,half 2] (half 2)) [.Seek 2 0 false] = some s ∧
      (s.reader.call halves (.Read 2 [true])).1 = .bytes [3,4] ∧
      (inMemory [1,2,3,4] s.position (.Read 2 [true])).1 = .bytes [1,2] :=
  ⟨halves_contiguous,⟨_,rfl,by decide,by decide⟩,_,rfl,by decide,by decide⟩

end Halves

end Vbe.Objects
