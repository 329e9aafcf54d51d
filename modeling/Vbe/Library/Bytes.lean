import Mathlib.Data.List.Lex
import Mathlib.Tactic.Ring

/-! Byte strings: the order that bytewise comparison uses, fixed-width big-endian
integers, bounds-checked slices and tables of equally long records. Nothing here
depends on a particular file format. -/
namespace Vbe.Library.Bytes

/-- Bytes are ordered by value, so that lists of bytes are ordered as byte
strings compare. -/
instance byteOrder : LinearOrder UInt8 where
  le_refl _ := UInt8.le_refl _
  le_trans _ _ _ := UInt8.le_trans
  le_antisymm _ _ := UInt8.le_antisymm
  le_total := UInt8.le_total
  lt_iff_le_not_ge a b := by
    rw [UInt8.lt_iff_toNat_lt,UInt8.le_iff_toNat_le,UInt8.le_iff_toNat_le]
    omega
  toDecidableLE := inferInstance
  toDecidableEq := inferInstance
  toDecidableLT := inferInstance

instance (priority := high) lawfulBEqBytes : LawfulBEq (List UInt8) := inferInstance

def toBigEndian : Nat → Nat → List UInt8
  | 0, _ => []
  | width + 1, n => UInt8.ofNat (n / 256 ^ width) :: toBigEndian width n

def ofBigEndian : List UInt8 → Nat
  | [] => 0
  | b :: rest => b.toNat * 256 ^ rest.length + ofBigEndian rest

@[simp] theorem length_toBigEndian (width n : Nat) : (toBigEndian width n).length = width := by
  induction width with
  | zero => rfl
  | succ width ih => simp [toBigEndian,ih]

theorem ofBigEndian_toBigEndian (width n : Nat) :
    ofBigEndian (toBigEndian width n) = n % 256 ^ width := by
  induction width with
  | zero => simp [toBigEndian,ofBigEndian,Nat.mod_one]
  | succ width ih =>
    simp only [toBigEndian,ofBigEndian,length_toBigEndian,ih]
    have leading : (UInt8.ofNat (n / 256 ^ width)).toNat = n / 256 ^ width % 256 := by simp
    rw [leading,pow_succ,Nat.mod_mul]
    ring

theorem ofBigEndian_of_lt {width n : Nat} (bound : n < 256 ^ width) :
    ofBigEndian (toBigEndian width n) = n := by
  rw [ofBigEndian_toBigEndian,Nat.mod_eq_of_lt bound]

theorem ofBigEndian_lt (bytes : List UInt8) : ofBigEndian bytes < 256 ^ bytes.length := by
  induction bytes with
  | nil => simp [ofBigEndian]
  | cons b rest ih =>
    have byte : b.toNat + 1 ≤ 256 := b.toNat_lt
    have scaled := Nat.mul_le_mul_right (256 ^ rest.length) byte
    simp only [ofBigEndian,List.length_cons,pow_succ]
    rw [Nat.add_mul] at scaled
    omega

/-- The leading bytes are those of the number without its low bytes. -/
theorem toBigEndian_add (high low n : Nat) :
    toBigEndian (high + low) n = toBigEndian high (n / 256 ^ low) ++ toBigEndian low n := by
  induction high with
  | zero => simp [toBigEndian]
  | succ high ih =>
    rw [Nat.add_right_comm high 1 low,toBigEndian,toBigEndian,ih,Nat.div_div_eq_div_mul,
      ← pow_add,Nat.add_comm low high]
    rfl

theorem toBigEndian_mod (width n : Nat) : toBigEndian width (n % 256 ^ width) = toBigEndian width n := by
  induction width generalizing n with
  | zero => rfl
  | succ width ih =>
    have low : n % 256 ^ (width + 1) % 256 ^ width = n % 256 ^ width :=
      Nat.mod_mod_of_dvd n (pow_dvd_pow 256 (Nat.le_succ width))
    have high : n % 256 ^ (width + 1) / 256 ^ width = n / 256 ^ width % 256 := by
      rw [pow_succ,Nat.mod_mul_right_div_self]
    rw [toBigEndian,toBigEndian,← ih (n % 256 ^ (width + 1)),low,ih,high]
    congr 1
    exact UInt8.toNat_inj.mp (by simp)

section Slice
variable {α : Type}

/-- The `len` elements from position `off`, provided all of them exist. -/
def slice (data : List α) (off len : Nat) : Option (List α) :=
  if off + len ≤ data.length then some ((data.drop off).take len) else none

theorem slice_length {data part : List α} {off len : Nat} (found : slice data off len = some part) :
    part.length = len := by
  unfold slice at found
  split at found
  next inside =>
    cases Option.some.inj found
    simp only [List.length_take,List.length_drop]
    omega
  next outside => contradiction

theorem slice_middle (before middle after : List α) :
    slice (before ++ middle ++ after) before.length middle.length = some middle := by
  have inside : before.length + middle.length ≤ (before ++ middle ++ after).length := by simp
  simp [slice,List.append_assoc]

/-- A slice that starts in a prefix's tail is a slice of that tail. -/
theorem slice_after (before rest : List α) (off len : Nat) :
    slice (before ++ rest) (before.length + off) len = slice rest off len := by
  have bound : before.length + off + len ≤ (before ++ rest).length ↔ off + len ≤ rest.length := by
    simp only [List.length_append]
    omega
  simp only [slice,bound]
  congr 2
  rw [List.drop_append,List.drop_eq_nil_of_le (by omega)]
  simp

theorem slice_append {data part : List α} {off len : Nat} (found : slice data off len = some part)
    (after : List α) : slice (data ++ after) off len = some part := by
  unfold slice at found
  split at found
  next inside =>
    cases Option.some.inj found
    have wider : off + len ≤ (data ++ after).length := by simp; omega
    rw [slice,if_pos wider,List.drop_append_of_le_length (by omega),
      List.take_append_of_le_length (by simp; omega)]
  next outside => contradiction

theorem slice_take {data part : List α} {off len : Nat} (found : slice data off len = some part)
    {shorter : Nat} (le : shorter ≤ len) : slice data off shorter = some (part.take shorter) := by
  unfold slice at found
  split at found
  next inside =>
    cases Option.some.inj found
    rw [slice,if_pos (by omega),List.take_take,Nat.min_eq_left le]
  next outside => contradiction

theorem slice_inside {data part : List α} {off len : Nat} (found : slice data off len = some part) :
    off + len ≤ data.length := by
  unfold slice at found
  split at found
  next inside => exact inside
  next outside => contradiction

theorem slice_split {data part : List α} {off len : Nat} (found : slice data off len = some part) :
    ∃ before after, data = before ++ (part ++ after) ∧ before.length = off := by
  have inside := slice_inside found
  refine ⟨data.take off,data.drop (off + len),?_,by simp; omega⟩
  rw [slice,if_pos inside] at found
  cases Option.some.inj found
  rw [← List.drop_drop,List.take_append_drop,List.take_append_drop]

/-- In a table of records of one width, record `i` is found at `i` times that
width. -/
theorem slice_flatten (records : List (List α)) (width : Nat)
    (uniform : ∀ record ∈ records, record.length = width) (i : Nat) (bound : i < records.length) :
    slice records.flatten (width * i) width = some records[i] := by
  induction records generalizing i with
  | nil => simp at bound
  | cons first rest ih =>
    have head : first.length = width := uniform first (by simp)
    cases i with
    | zero =>
      have := slice_middle [] first rest.flatten
      simpa [head] using this
    | succ i =>
      have tail := ih (fun record member => uniform record (by simp [member])) i (by simpa using bound)
      have shift : width * (i + 1) = first.length + width * i := by rw [head]; ring
      rw [List.flatten_cons,shift,slice_after,tail]
      rfl

theorem length_flatten_uniform (records : List (List α)) (width : Nat)
    (uniform : ∀ record ∈ records, record.length = width) :
    records.flatten.length = width * records.length := by
  induction records with
  | nil => simp
  | cons first rest ih =>
    have head : first.length = width := uniform first (by simp)
    have tail := ih (fun record member => uniform record (by simp [member]))
    rw [List.flatten_cons,List.length_append,head,tail,List.length_cons]
    ring

end Slice

section Delimited
variable {α : Type}

/-- A part that a delimiter ends is read back. -/
theorem append_delimiter {d : α} {a b x y : List α} (absent : d ∉ a) (absent' : d ∉ b) (same : a ++ d :: x = b ++ d :: y) :
    a = b ∧ x = y := by
  induction a generalizing b with
  | nil =>
    cases b with
    | nil => exact ⟨rfl,(List.cons.inj same).2⟩
    | cons c b => exact absurd ((List.cons.inj same).1 ▸ List.mem_cons_self) absent'
  | cons c a ih =>
    cases b with
    | nil => exact absurd ((List.cons.inj same).1 ▸ List.mem_cons_self) absent
    | cons c' b =>
      obtain ⟨rfl,rest⟩ := List.cons.inj same
      obtain ⟨rfl,rfl⟩ := ih (fun member => absent (List.mem_cons_of_mem _ member))
        (fun member => absent' (List.mem_cons_of_mem _ member)) rest
      exact ⟨rfl,rfl⟩

end Delimited

end Vbe.Library.Bytes
