import Mathlib.Algebra.BigOperators.Group.List.Basic
import Mathlib.Algebra.GroupWithZero.Nat
import Mathlib.Data.List.TakeDrop
import Vbe.Library.Runs

/-! Sequences of bytes in slices, and a reader of them. -/
namespace Vbe.Gather

abbrev Slice := List UInt8

/-- What an `int` holds after an addition. -/
def int (x : Int) : Int := (x + 2 ^ 63) % 2 ^ 64 - 2 ^ 63

def Fits (x : Int) : Prop := -2 ^ 63 ≤ x ∧ x < 2 ^ 63

/-- The slices together are no longer than an `int` can say. -/
structure Bytes where
  Slices : List Slice
  fits : (Slices.flatten.length : Int) < 2 ^ 63

inductive Error
  | EOF
  | ErrInvalidOffset
  | invalidSeek
deriving DecidableEq

/-- The calls of the writer, which does not fail, or the error. -/
inductive Appended
  | written (writes : List Slice)
  | invalidOffset
  | panicked
deriving DecidableEq

/-- How many bytes a call says it has put in the buffer, what it has put there, and the error. -/
structure Reply where
  n : Int
  data : Slice
  err : Option Error
deriving DecidableEq

/-- The slice in which an offset lies, the slices after it, and the offset in the slice. -/
def find : List Slice → Int → Option (Slice × List Slice × Int)
  | [],_ => none
  | bs :: rest,offset => if offset < bs.length then some (bs,rest,offset) else find rest (offset - bs.length)

/-- The slices after the first one that is written. -/
def writeRest : List Slice → Int → List Slice
  | [],_ => []
  | s :: rest,size =>
    if size > 0 then
      let l := if size > s.length then (s.length : Int) else size
      s.take l.toNat :: writeRest rest (size - l)
    else []

namespace Bytes

def flat (b : Bytes) : Slice := b.Slices.flatten

def Length (b : Bytes) : Int := b.flat.length

def AppendSectionTo (b : Bytes) (offset size : Int) : Appended :=
  if offset < 0 then .invalidOffset
  else
    match find b.Slices offset with
    | none => .written []
    | some (s,rest,offset) =>
      let firstChunkSize := if int (offset + size) ≤ s.length then size else s.length - offset
      let high := int (offset + firstChunkSize)
      if high < offset then .panicked
      else .written ((s.drop offset.toNat).take (high - offset).toNat :: writeRest rest (size - firstChunkSize))

/-- `ReadAt` of the bytes themselves, into a buffer of a size. -/
def ReadAt (b : Bytes) (size : Nat) (off : Int) : Option Reply :=
  match b.AppendSectionTo off size with
  | .written writes => some ⟨size,writes.flatten,none⟩
  | .invalidOffset => some ⟨size,[],some .ErrInvalidOffset⟩
  | .panicked => none

end Bytes

/-- The loop over the slices after the first one, with what has been copied, and how much of the last slice. -/
def copyRest (size : Nat) : Slice → Nat → Slice → List Slice → Slice × Bool
  | copied,m,curSlice,[] => (copied,m = curSlice.length)
  | copied,_,_,s :: rest =>
    if size > copied.length then
      let m := min (size - copied.length) s.length
      copyRest size (copied ++ s.take m) m s rest
    else (copied,false)

/-- `ReadAt` of a reader, into a buffer of a size. -/
def ReadAt (b : Bytes) (size : Nat) (off : Int) : Reply :=
  if off < 0 then ⟨0,[],some .ErrInvalidOffset⟩
  else
    match find b.Slices off with
    | none => if size = 0 then ⟨0,[],none⟩ else ⟨0,[],some .EOF⟩
    | some (curSlice,rest,offset) =>
      let first := (curSlice.drop offset.toNat).take size
      let (data,ended) := copyRest size first first.length curSlice rest
      ⟨data.length,data,if ended then some .EOF else none⟩

inductive Call
  | Read (size : Nat)
  | Seek (offset whence : Int)
deriving DecidableEq

inductive Answer
  | read (reply : Reply)
  | sought (position : Int)
  | failed
  | panicked
deriving DecidableEq

/-- `bytesReadSeekCloser` at an offset. -/
def Read (b : Bytes) (offset : Int) (size : Nat) : Answer × Int :=
  if int (offset + size) > b.Length ∧ b.Length - offset = 0 then (.read ⟨0,[],some .EOF⟩,offset)
  else
    let l := if int (offset + size) > b.Length then (b.Length - offset).toNat else size
    match b.ReadAt l offset with
    | some reply => (.read reply,int (offset + reply.n))
    | none => (.panicked,offset)

def Seek (b : Bytes) (offset by_ whence : Int) : Answer × Int :=
  let newOffset :=
    if whence = 0 then by_
    else if whence = 1 then int (offset + by_)
    else if whence = 2 then int (b.Length + by_)
    else offset
  if newOffset < 0 ∨ newOffset > b.Length then (.failed,offset) else (.sought newOffset,newOffset)

def call (b : Bytes) (offset : Int) : Call → Answer × Int
  | .Read size => Read b offset size
  | .Seek by_ whence => Seek b offset by_ whence

/-- `bytes.Reader` over a flat content, at a position. -/
def flatCall (f : Slice) (position : Int) : Call → Answer × Int
  | .Read size =>
    if position ≥ f.length then (.read ⟨0,[],some .EOF⟩,position)
    else
      let data := (f.drop position.toNat).take size
      (.read ⟨data.length,data,none⟩,position + data.length)
  | .Seek by_ whence =>
    if whence = 0 then if by_ < 0 then (.failed,position) else (.sought by_,by_)
    else if whence = 1 then if position + by_ < 0 then (.failed,position) else (.sought (position + by_),position + by_)
    else if whence = 2 then if f.length + by_ < 0 then (.failed,position) else (.sought (f.length + by_),f.length + by_)
    else (.failed,position)

/-- The answers to some calls. -/
def answers (step : Int → Call → Answer × Int) : Int → List Call → List Answer
  | _,[] => []
  | position,c :: calls => (step position c).1 :: answers step (step position c).2 calls

/-- All calls of a sequence meet a condition on the position before them. -/
def Along (step : Int → Call → Answer × Int) (condition : Int → Call → Prop) : Int → List Call → Prop
  | _,[] => True
  | position,c :: calls => condition position c ∧ Along step condition (step position c).2 calls

/-- A part of a flat content. -/
def section_ (f : Slice) (off n : Int) : Slice := (f.drop off.toNat).take n.toNat

section Finding
variable {slices : List Slice} {off r : Int} {s : Slice} {rest : List Slice}

theorem int_of_fits {x : Int} (fits : Fits x) : int x = x := by
  obtain ⟨low,high⟩ := fits
  rw [int]
  omega

/-- The slice that is found holds the byte at the offset. -/
theorem find_some (nonneg : 0 ≤ off) (found : find slices off = some (s,rest,r)) :
    ∃ before, slices = before ++ s :: rest ∧ off = before.flatten.length + r ∧ 0 ≤ r ∧ r < s.length := by
  induction slices generalizing off with
  | nil => contradiction
  | cons bs slices ih =>
    rw [find] at found
    split at found
    next inside =>
      cases found
      exact ⟨[],rfl,by simp,nonneg,inside⟩
    next beyond =>
      obtain ⟨before,rfl,at_,low,high⟩ := ih (by omega) found
      refine ⟨bs :: before,rfl,?_,low,high⟩
      rw [List.flatten_cons,List.length_append]
      omega

theorem find_none (found : find slices off = none) : (slices.flatten.length : Int) ≤ off ∨ off < 0 ∧ slices = [] := by
  induction slices generalizing off with
  | nil =>
    simp
    omega
  | cons bs slices ih =>
    rw [find] at found
    split at found
    next => contradiction
    next beyond =>
      rw [List.flatten_cons,List.length_append]
      rcases ih found with after | ⟨negative,rfl⟩
      · omega
      · simp
        omega

theorem drop_found (nonneg : 0 ≤ off) (found : find slices off = some (s,rest,r)) :
    slices.flatten.drop off.toNat = s.drop r.toNat ++ rest.flatten := by
  obtain ⟨before,rfl,at_,low,high⟩ := find_some nonneg found
  have count : off.toNat = before.flatten.length + r.toNat := by omega
  rw [count,List.flatten_append,List.flatten_cons,← List.drop_drop,List.drop_left,List.drop_append_of_le_length (by omega)]

theorem writeRest_flatten (size : Int) : (writeRest rest size).flatten = rest.flatten.take size.toNat := by
  induction rest generalizing size with
  | nil => simp [writeRest]
  | cons s rest ih =>
    rw [writeRest]
    split
    next more =>
      dsimp only
      rw [List.flatten_cons,List.flatten_cons,ih,List.take_append]
      split
      next longer =>
        have left : (size - s.length).toNat = size.toNat - s.length := by omega
        rw [left,Int.toNat_natCast,List.take_length,List.take_of_length_le (by omega : s.length ≤ size.toNat)]
      next =>
        have left : (size - size).toNat = size.toNat - s.length := by omega
        rw [left]
    next =>
      have none : size.toNat = 0 := by omega
      rw [none]
      rfl

end Finding

section Appending
variable {b : Bytes} {off n : Int}

/-- The end of the part in its first slice can be said. -/
def Reachable (b : Bytes) (off n : Int) : Prop := ∀ s rest r, find b.Slices off = some (s,rest,r) → r + n < 2 ^ 63

theorem Bytes.slice_fits (b : Bytes) {before rest : List Slice} {s : Slice} (split : b.Slices = before ++ s :: rest) :
    (before.flatten.length + s.length + rest.flatten.length : Int) = b.Length ∧ b.Length < 2 ^ 63 := by
  refine ⟨?_,b.fits⟩
  rw [Bytes.Length,Bytes.flat,split]
  simp
  omega

theorem section_beyond {f : Slice} (beyond : (f.length : Int) ≤ off) : section_ f off n = [] := by
  rw [section_,List.drop_of_length_le (by omega),List.take_nil]

theorem append_reachable (nonneg : 0 ≤ off) (some_ : 0 ≤ n) (reachable : Reachable b off n) :
    ∃ writes, b.AppendSectionTo off n = .written writes ∧ writes.flatten = section_ b.flat off n := by
  rw [Bytes.AppendSectionTo,if_neg (Int.not_lt.mpr nonneg)]
  cases found : find b.Slices off with
  | none =>
    refine ⟨[],rfl,?_⟩
    have beyond : (b.flat.length : Int) ≤ off := by
      rcases find_none found with after | ⟨negative,_⟩
      · exact after
      · omega
    rw [section_beyond beyond]
    rfl
  | some place =>
    obtain ⟨s,rest,r⟩ := place
    obtain ⟨before,split,at_,low,high⟩ := find_some nonneg found
    obtain ⟨total,fits⟩ := b.slice_fits split
    have reach := reachable s rest r found
    have whole : int (r + n) = r + n := int_of_fits ⟨by omega,reach⟩
    have ends : int (r + (s.length - r)) = s.length := by
      rw [int_of_fits ⟨by omega,by omega⟩]
      omega
    dsimp only
    rw [whole]
    by_cases inside : r + n ≤ s.length
    · rw [if_pos inside,whole,if_neg (by omega)]
      refine ⟨_,rfl,?_⟩
      have size : (r + n - r).toNat = n.toNat := by omega
      have none : n - n = 0 := by omega
      rw [List.flatten_cons,writeRest_flatten,none,section_,Bytes.flat,drop_found nonneg found,size,
        List.take_append_of_le_length (by rw [List.length_drop]; omega)]
      simp
    · rw [if_neg inside,ends,if_neg (by omega)]
      refine ⟨_,rfl,?_⟩
      have all : ((s.length : Int) - r).toNat = (s.drop r.toNat).length := by
        rw [List.length_drop]
        omega
      have left : (n - (s.length - r)).toNat = n.toNat - (s.drop r.toNat).length := by
        rw [List.length_drop]
        omega
      have first : (s.drop r.toNat).take n.toNat = s.drop r.toNat := List.take_of_length_le (by rw [List.length_drop]; omega)
      rw [List.flatten_cons,writeRest_flatten,section_,Bytes.flat,drop_found nonneg found,List.take_append,all,List.take_length,left,first]

/-- Where the end cannot be said, the code takes a slice that ends before it begins. -/
theorem append_unreachable (nonneg : 0 ≤ off) (fits : Fits n) (unreachable : ¬ Reachable b off n) : b.AppendSectionTo off n = .panicked := by
  rw [Reachable] at unreachable
  push Not at unreachable
  obtain ⟨s,rest,r,found,reach⟩ := unreachable
  obtain ⟨before,split,at_,low,high⟩ := find_some nonneg found
  obtain ⟨total,bound⟩ := b.slice_fits split
  obtain ⟨_,most⟩ := fits
  have wrapped : int (r + n) = r + n - 2 ^ 64 := by
    rw [int]
    omega
  rw [Bytes.AppendSectionTo,if_neg (Int.not_lt.mpr nonneg),found]
  have small : r + n - 2 ^ 64 ≤ s.length := by omega
  have before : r + n - 2 ^ 64 < r := by omega
  dsimp only
  rw [wrapped,if_pos small,wrapped,if_pos before]

end Appending

section Copying
variable {b : Bytes} {off : Int} {size : Nat}

theorem copyRest_data {copied curSlice : Slice} {m : Nat} {rest : List Slice} (most : copied.length ≤ size) :
    (copyRest size copied m curSlice rest).1 = copied ++ rest.flatten.take (size - copied.length) := by
  induction rest generalizing copied m curSlice with
  | nil => simp [copyRest]
  | cons s rest ih =>
    rw [copyRest]
    split
    next more =>
      dsimp only
      have taken : (s.take (min (size - copied.length) s.length)).length = min (size - copied.length) s.length := by simp
      have same : s.take (min (size - copied.length) s.length) = s.take (size - copied.length) := by
        rcases Nat.le_total (size - copied.length) s.length with less | all
        · rw [Nat.min_eq_left less]
        · rw [Nat.min_eq_right all,List.take_length,List.take_of_length_le all]
      rw [ih (by rw [List.length_append]; omega),List.flatten_cons,List.take_append,List.length_append,taken,same,List.append_assoc]
      have left : size - (copied.length + min (size - copied.length) s.length) = size - copied.length - s.length := by omega
      rw [left]
    next none =>
      have none : size - copied.length = 0 := by omega
      rw [none,List.take_zero,List.append_nil]

/-- Where too little was copied the end is seen after any slice but the first. -/
theorem copyRest_ended {copied curSlice : Slice} {m : Nat} {rest : List Slice}
    (short : (copyRest size copied m curSlice rest).1.length < size) :
    (copyRest size copied m curSlice rest).2 = true ∨
      rest = [] ∧ (copyRest size copied m curSlice rest).2 = decide (m = curSlice.length) := by
  induction rest generalizing copied m curSlice with
  | nil => exact .inr ⟨rfl,rfl⟩
  | cons s rest ih =>
    left
    rw [copyRest] at short ⊢
    split at short
    next more =>
      rw [if_pos more]
      rcases ih short with ended | ⟨rfl,ended⟩
      · exact ended
      · have total : (copied ++ s.take (min (size - copied.length) s.length)).length < size := short
        rw [List.length_append,List.length_take] at total
        have all : min (size - copied.length) s.length = s.length := by omega
        exact ended.trans (by rw [all]; simp)
    next none => exact absurd short none

/-- The contract of `io.ReaderAt` for a buffer of a size. -/
structure Contract (f : Slice) (size : Nat) (off : Int) (reply : Reply) : Prop where
  data : reply.data = section_ f off size
  count : reply.n = reply.data.length
  short : reply.n < size → reply.err ≠ none

/-- A part that begins in the last slice begins there with it, or ends in it. -/
def Aligned (b : Bytes) (off : Int) (size : Nat) : Prop := ∀ s r, find b.Slices off = some (s,[],r) → r = 0 ∨ r + size ≤ s.length

theorem ReadAt_iff (nonneg : 0 ≤ off) : Contract b.flat size off (ReadAt b size off) ↔ Aligned b off size := by
  rw [ReadAt,if_neg (Int.not_lt.mpr nonneg)]
  cases found : find b.Slices off with
  | none =>
    have beyond : (b.flat.length : Int) ≤ off := by
      rcases find_none found with after | ⟨negative,_⟩
      · exact after
      · omega
    have aligned : Aligned b off size := fun s r here => absurd (found.symm.trans here) (by simp)
    have nothing := section_beyond (n := size) beyond
    refine iff_of_true ?_ aligned
    dsimp only
    split
    next none => exact ⟨nothing.symm,rfl,fun less => by simp at less; omega⟩
    next => exact ⟨nothing.symm,rfl,by simp⟩
  | some place =>
    obtain ⟨s,rest,r⟩ := place
    obtain ⟨before,split,at_,low,high⟩ := find_some nonneg found
    have most : ((s.drop r.toNat).take size).length ≤ size := by
      rw [List.length_take]
      exact Nat.min_le_left _ _
    have part : (copyRest size ((s.drop r.toNat).take size) ((s.drop r.toNat).take size).length s rest).1 = section_ b.flat off size := by
      rw [copyRest_data most,section_,Bytes.flat,drop_found nonneg found,Int.toNat_natCast,List.take_append,List.length_take]
      congr 2
      omega
    dsimp only
    constructor
    · intro contract s' r' here
      obtain ⟨rfl,rfl,rfl⟩ : s = s' ∧ rest = [] ∧ r = r' := by simpa [found] using here
      by_contra outside
      obtain ⟨offset,past⟩ := not_or.mp outside
      have first : ((s.drop r.toNat).take size).length = s.length - r.toNat := by
        rw [List.length_take,List.length_drop]
        omega
      have open_ : ((s.drop r.toNat).take size).length ≠ s.length := by omega
      have error := contract.short
      simp only [copyRest,first] at error
      have less : ((s.length - r.toNat : Nat) : Int) < size := by omega
      have none : s.length - r.toNat ≠ s.length := by omega
      exact error less (by simp [none])
    · intro aligned
      refine ⟨part,rfl,fun less => ?_⟩
      have ended := copyRest_ended (Int.ofNat_lt.mp less)
      have closed : (copyRest size ((s.drop r.toNat).take size) ((s.drop r.toNat).take size).length s rest).2 = true := by
        rcases ended with yes | ⟨rfl,decided⟩
        · exact yes
        · rw [decided,decide_eq_true_iff]
          have short : ((s.drop r.toNat).take size).length < size := by
            have less := Int.ofNat_lt.mp less
            simpa [copyRest] using less
          rw [List.length_take,List.length_drop] at short ⊢
          rcases aligned s r found with rfl | inside
          · simp
            omega
          · omega
      rw [closed]
      simp

end Copying

section Reading
variable {b : Bytes} {position : Int}

/-- Calls as they can be made: no buffer is larger than its length can say, and seeks are to where there is content, or its end. -/
def Proper (f : Slice) (position : Int) : Call → Prop
  | .Read size => (size : Int) < 2 ^ 63
  | .Seek by_ whence =>
    whence = 0 ∧ 0 ≤ by_ ∧ by_ ≤ f.length ∨ whence = 1 ∧ 0 ≤ position + by_ ∧ position + by_ ≤ f.length ∨
      whence = 2 ∧ 0 ≤ f.length + by_ ∧ f.length + by_ ≤ f.length

/-- The end of the buffer can be said, and nobody asks for nothing at the end. -/
def Alike (f : Slice) (position : Int) : Call → Prop
  | .Read size => position + size < 2 ^ 63 ∧ (0 < size ∨ position < f.length)
  | .Seek _ _ => True

/-- A read of what is there. -/
theorem ReadAt_within (nonneg : 0 ≤ position) {l : Nat} (within : position + l ≤ b.Length) :
    b.ReadAt l position = some ⟨l,section_ b.flat position l,none⟩ := by
  have reachable : Reachable b position l := by
    intro s rest r found
    obtain ⟨before,split,at_,_,_⟩ := find_some nonneg found
    obtain ⟨total,bound⟩ := b.slice_fits split
    omega
  obtain ⟨writes,appended,whole⟩ := append_reachable nonneg (Int.natCast_nonneg l) reachable
  rw [Bytes.ReadAt,appended]
  dsimp only
  rw [whole]

theorem length_section (nonneg : 0 ≤ position) {l : Nat} (within : position + l ≤ b.Length) : (section_ b.flat position l).length = l := by
  rw [Bytes.Length] at within
  rw [section_,List.length_take,List.length_drop]
  omega

theorem Read_alike (low : 0 ≤ position) (high : position ≤ b.Length) {size : Nat} (alike : Alike b.flat position (.Read size)) :
    Read b position size = flatCall b.flat position (.Read size) := by
  obtain ⟨fits,asks⟩ := alike
  have whole : int (position + size) = position + size := int_of_fits ⟨by omega,fits⟩
  have bound := b.fits
  have length : b.Length = (b.Slices.flatten.length : Int) := rfl
  rw [Read,flatCall,whole]
  by_cases beyond : position + size > b.Length
  · by_cases ended : b.Length - position = 0
    · rw [if_pos ⟨beyond,ended⟩,if_pos (by rw [Bytes.Length] at ended; omega)]
    · have within : position + ((b.Length - position).toNat : Nat) ≤ b.Length := by omega
      have data : section_ b.flat position (b.Length - position).toNat = (b.flat.drop position.toNat).take size := by
        rw [section_,List.take_of_length_le,List.take_of_length_le]
        · rw [List.length_drop]
          rw [Bytes.Length] at beyond
          omega
        · rw [List.length_drop]
          rw [Bytes.Length]
          omega
      have count := length_section low within
      rw [data] at count
      rw [if_neg (fun both => ended both.2),if_pos beyond,if_neg (by rw [Bytes.Length] at ended high; omega)]
      dsimp only
      rw [ReadAt_within low within]
      dsimp only
      rw [data,count,int_of_fits ⟨by omega,by omega⟩]
  · have within : position + size ≤ b.Length := Int.not_lt.mp beyond
    have open_ : position < b.flat.length := by
      rw [Bytes.Length] at within
      rcases asks with some_ | inside
      · omega
      · exact inside
    have count := length_section low within
    rw [if_neg (fun both => beyond both.1),if_neg beyond,if_neg (Int.not_le.mpr open_)]
    dsimp only
    rw [ReadAt_within low within]
    dsimp only
    rw [section_,Int.toNat_natCast] at count ⊢
    rw [count,int_of_fits ⟨by omega,by omega⟩]

theorem Read_differs (low : 0 ≤ position) (high : position ≤ b.Length) {size : Nat} (sized : (size : Int) < 2 ^ 63)
    (differs : ¬ Alike b.flat position (.Read size)) : (Read b position size).1 ≠ (flatCall b.flat position (.Read size)).1 := by
  have bound := b.fits
  have length : b.Length = (b.Slices.flatten.length : Int) := rfl
  by_cases fits : position + size < 2 ^ 63
  · have none : size = 0 ∧ position = b.flat.length := by
      have neither := not_or.mp fun asks => differs ⟨fits,asks⟩
      rw [Bytes.Length] at high
      omega
    obtain ⟨rfl,rfl⟩ := none
    have within : (b.flat.length : Int) + (0 : Nat) ≤ b.Length := by rw [Bytes.Length]; omega
    have whole : int ((b.flat.length : Int) + (0 : Nat)) = b.flat.length := by
      rw [int_of_fits ⟨by omega,fits⟩]
      simp
    have inside : ¬ ((b.flat.length : Int) > b.Length) := by rw [Bytes.Length]; omega
    rw [Read,flatCall,whole,if_neg (fun both => inside both.1),if_neg inside,if_pos (Int.le_refl _)]
    dsimp only
    rw [ReadAt_within low within]
    exact fun same => absurd (congrArg Reply.err (Answer.read.inj same)) (by simp)
  · have wrapped : int (position + size) = position + size - 2 ^ 64 := by
      rw [int]
      omega
    have inside : ¬ (position + size - 2 ^ 64 > b.Length) := by omega
    have all : ∀ reply, b.ReadAt size position = some reply → reply.n = size := by
      intro reply replied
      rw [Bytes.ReadAt] at replied
      split at replied
      next => exact congrArg Reply.n (Option.some.inj replied).symm
      next => exact congrArg Reply.n (Option.some.inj replied).symm
      next => exact absurd replied (by simp)
    have fewer : ∀ reply, (flatCall b.flat position (.Read size)).1 = .read reply → reply.n < size := by
      intro reply replied
      rw [flatCall] at replied
      split at replied
      next =>
        obtain rfl := Answer.read.inj replied
        show (0 : Int) < size
        omega
      next =>
        obtain rfl := Answer.read.inj replied
        show (((b.flat.drop position.toNat).take size).length : Int) < size
        rw [Bytes.Length,Bytes.flat] at high
        rw [List.length_take,List.length_drop,Bytes.flat]
        omega
    rw [Read,wrapped,if_neg (fun both => inside both.1),if_neg inside]
    dsimp only
    cases replied : b.ReadAt size position with
    | none =>
      dsimp only
      rw [flatCall]
      split <;> simp
    | some reply =>
      intro same
      have less := fewer reply same.symm
      rw [all reply replied] at less
      exact absurd less (Int.lt_irrefl _)

theorem Seek_alike {by_ whence : Int} (proper : Proper b.flat position (.Seek by_ whence)) :
    Seek b position by_ whence = flatCall b.flat position (.Seek by_ whence) := by
  have bound : b.Length < 2 ^ 63 := b.fits
  have length : (b.flat.length : Int) = b.Length := rfl
  have one : ¬ (1 : Int) = 0 := by decide
  have two : ¬ (2 : Int) = 0 ∧ ¬ (2 : Int) = 1 := by decide
  have sought {target : Int} (low : 0 ≤ target) (high : target ≤ b.Length) :
      (if target < 0 ∨ target > b.Length then (Answer.failed,position) else (.sought target,target)) =
        if target < 0 then (.failed,position) else (.sought target,target) := by
    have inside : ¬ (target < 0 ∨ target > b.Length) := by omega
    rw [if_neg inside,if_neg (Int.not_lt.mpr low)]
  rw [Proper,length] at proper
  rw [Seek,flatCall,length]
  rcases proper with ⟨rfl,low,high⟩ | ⟨rfl,low,high⟩ | ⟨rfl,low,high⟩
  · rw [if_pos rfl,if_pos rfl]
    exact sought low high
  · rw [if_neg one,if_pos rfl,if_neg one,if_pos rfl,int_of_fits ⟨by omega,by omega⟩]
    exact sought low high
  · rw [if_neg two.1,if_neg two.2,if_pos rfl,if_neg two.1,if_neg two.2,if_pos rfl,int_of_fits ⟨by omega,by omega⟩]
    exact sought low high

/-- A proper call leaves a position in the content or at its end. -/
theorem flatCall_position (low : 0 ≤ position) (high : position ≤ b.Length) {c : Call} (proper : Proper b.flat position c) :
    0 ≤ (flatCall b.flat position c).2 ∧ (flatCall b.flat position c).2 ≤ b.Length := by
  have length : b.Length = (b.flat.length : Int) := rfl
  cases c with
  | Read size =>
    rw [flatCall]
    split
    next => exact ⟨low,high⟩
    next =>
      dsimp only
      rw [List.length_take,List.length_drop]
      omega
  | Seek by_ whence =>
    rcases proper with ⟨rfl,least,most⟩ | ⟨rfl,least,most⟩ | ⟨rfl,least,most⟩
    · rw [flatCall,if_pos rfl,if_neg (Int.not_lt.mpr least)]
      exact ⟨least,most⟩
    · rw [flatCall,if_neg (by decide),if_pos rfl,if_neg (Int.not_lt.mpr least)]
      exact ⟨least,most⟩
    · rw [flatCall,if_neg (by decide),if_neg (by decide),if_pos rfl,if_neg (Int.not_lt.mpr least)]
      exact ⟨least,most⟩

/-- The answers of the two readers are the same as long as, and no longer than, all calls are such that they are. -/
theorem answers_iff (low : 0 ≤ position) (high : position ≤ b.Length) {calls : List Call}
    (proper : Along (flatCall b.flat) (Proper b.flat) position calls) :
    answers (call b) position calls = answers (flatCall b.flat) position calls ↔ Along (flatCall b.flat) (Alike b.flat) position calls := by
  induction calls generalizing position with
  | nil => exact iff_of_true rfl trivial
  | cons c calls ih =>
    obtain ⟨first,rest⟩ := proper
    obtain ⟨low',high'⟩ := flatCall_position low high first
    have after := ih low' high' rest
    have same (alike : Alike b.flat position c) : call b position c = flatCall b.flat position c := by
      cases c with
      | Read size => exact Read_alike low high alike
      | Seek by_ whence => exact Seek_alike first
    by_cases alike : Alike b.flat position c
    · rw [answers,answers,same alike,List.cons.injEq,Along]
      simp only [true_and,after,alike]
    · refine iff_of_false (fun equal => ?_) fun all => alike all.1
      cases c with
      | Read size => exact Read_differs low high first alike (List.cons.inj equal).1
      | Seek by_ whence => exact alike trivial

theorem sliced_iff (b : Bytes) :
    (∀ off n, 0 ≤ off → 0 ≤ n → Fits n →
      ((∃ writes, b.AppendSectionTo off n = .written writes ∧ writes.flatten = section_ b.flat off n) ↔ Reachable b off n)) ∧
    (∀ calls, Along (flatCall b.flat) (Proper b.flat) 0 calls →
      (answers (call b) 0 calls = answers (flatCall b.flat) 0 calls ↔ Along (flatCall b.flat) (Alike b.flat) 0 calls)) ∧
    ∀ size off, 0 ≤ off → (Contract b.flat size off (ReadAt b size off) ↔ Aligned b off size) := by
  refine ⟨fun off n nonneg some_ fits => ⟨fun ⟨writes,appended,_⟩ => ?_,append_reachable nonneg some_⟩,fun calls proper => ?_,
    fun size off nonneg => ReadAt_iff nonneg⟩
  · by_contra unreachable
    rw [append_unreachable nonneg fits unreachable] at appended
    contradiction
  · exact answers_iff (Int.le_refl 0) (Int.natCast_nonneg _) proper

/-- Three bytes in one slice. -/
def three : Bytes := ⟨[[1,2,3]],by decide⟩

/-- The rest of the bytes after the first one, and nothing after the last one. -/
theorem sliced_differs : three.AppendSectionTo 1 (2 ^ 63 - 1) = .panicked ∧
    answers (call three) 0 [.Read 3,.Read 0] ≠ answers (flatCall three.flat) 0 [.Read 3,.Read 0] ∧
    ¬ Contract three.flat 3 1 (ReadAt three 3 1) := by
  refine ⟨by decide,by decide,fun contract => ?_⟩
  exact contract.short (by decide) (by decide)

end Reading

end Vbe.Gather
