import Mathlib.Tactic.Ring

/-! Unsigned integers of up to 64 bits in groups of seven bits, the lowest first, every
byte but the last with its high bit set. -/
namespace Vbe.Library.Varints

def MaxVarintLen64 : Nat := 10

/-- The loop of `binary.PutUvarint`, over at most so many bytes. -/
def putUvarintFrom : Nat → Nat → List UInt8
  | 0, _ => []
  | room + 1, x =>
    if x ≥ 0x80 then (UInt8.ofNat x ||| 0x80) :: putUvarintFrom room (x >>> 7) else [UInt8.ofNat x]

def putUvarint (x : UInt64) : List UInt8 := putUvarintFrom MaxVarintLen64 x.toNat

/-- The loop of `binary.Uvarint` at the byte with index `i`, where `x` has been read and `s` bits are shifted. -/
def uvarintFrom : List UInt8 → Nat → Nat → Nat → Nat × Int
  | [], _, _, _ => (0,0)
  | b :: rest, i, x, s =>
    if i = MaxVarintLen64 then (0,-(i + 1))
    else if b < 0x80 then
      if i = MaxVarintLen64 - 1 ∧ b > 1 then (0,-(i + 1)) else (x ||| (b.toNat <<< s),i + 1)
    else uvarintFrom rest (i + 1) (x ||| ((b &&& 0x7f).toNat <<< s)) (s + 7)

/-- The number read and the number of bytes it takes, which is not positive where there is none. -/
def uvarint (buf : List UInt8) : Nat × Int := uvarintFrom buf 0 0 0

theorem toNat_continued (b : UInt8) : (b ||| 0x80).toNat = b.toNat % 128 + 128 := by
  have all : ∀ n : Fin 256, n.val ||| 128 = n.val % 128 + 128 := by decide +kernel
  rw [UInt8.toNat_or]
  exact all ⟨b.toNat,b.toNat_lt⟩

theorem toNat_payload (b : UInt8) : (b &&& 0x7f).toNat = b.toNat % 128 := by
  rw [UInt8.toNat_and]
  exact Nat.and_two_pow_sub_one_eq_mod b.toNat 7

/-- Bits above those that have been read are added. -/
theorem or_shift {x s : Nat} (below : x < 2 ^ s) (b : Nat) : x ||| (b <<< s) = x + b * 2 ^ s := by
  rw [Nat.or_comm,← Nat.shiftLeft_add_eq_or_of_lt below,Nat.shiftLeft_eq,Nat.add_comm]

theorem uvarintFrom_last {x i read s : Nat} (rest : List UInt8) (shifted : s = 7 * i) (below : read < 2 ^ s)
    (small : x < 128) (inside : i < MaxVarintLen64) (fits : x * 2 ^ s < 2 ^ 64) :
    uvarintFrom (UInt8.ofNat x :: rest) i read s = (read + x * 2 ^ s,((i + 1 : Nat) : Int)) := by
  have byte : (UInt8.ofNat x).toNat = x := by
    rw [UInt8.toNat_ofNat']
    omega
  have ends : UInt8.ofNat x < 0x80 := by
    rw [UInt8.lt_iff_toNat_lt,byte]
    exact small
  have fitting : ¬(i = MaxVarintLen64 - 1 ∧ UInt8.ofNat x > 1) := by
    rintro ⟨ninth,more⟩
    simp only [MaxVarintLen64] at ninth
    rw [gt_iff_lt,UInt8.lt_iff_toNat_lt,byte] at more
    have two : 1 < x := more
    rw [shifted,ninth] at fits
    omega
  rw [uvarintFrom,if_neg (Nat.ne_of_lt inside),if_pos ends,if_neg fitting,byte,or_shift below]
  simp

theorem uvarintFrom_put (room : Nat) {x i read s : Nat} (rest : List UInt8) (shifted : s = 7 * i) (below : read < 2 ^ s)
    (enough : x < 2 ^ (7 * (room + 1))) (short : room + 1 + i ≤ MaxVarintLen64) (fits : x * 2 ^ s < 2 ^ 64) :
    uvarintFrom (putUvarintFrom (room + 1) x ++ rest) i read s =
      (read + x * 2 ^ s,((i + (putUvarintFrom (room + 1) x).length : Nat) : Int)) := by
  induction room generalizing x i read s with
  | zero =>
    have small : x < 128 := by simpa using enough
    rw [putUvarintFrom,if_neg (by omega)]
    exact uvarintFrom_last rest shifted below small (by omega) fits
  | succ room ih =>
    by_cases more : x ≥ 0x80
    · have bits : x >>> 7 = x / 128 := Nat.shiftRight_eq_div_pow x 7
      have continues : ¬(UInt8.ofNat x ||| 0x80) < 0x80 := by
        rw [UInt8.lt_iff_toNat_lt,toNat_continued]
        have value : (0x80 : UInt8).toNat = 128 := rfl
        omega
      have payload : ((UInt8.ofNat x ||| 0x80) &&& 0x7f).toNat = x % 128 := by
        rw [toNat_payload,toNat_continued,UInt8.toNat_ofNat']
        omega
      have wider : 2 ^ (s + 7) = 2 ^ s * 128 := pow_add 2 s 7
      have split : read + x % 128 * 2 ^ s + x / 128 * 2 ^ (s + 7) = read + x * 2 ^ s := by
        rw [wider]
        conv_rhs => rw [← Nat.mod_add_div x 128]
        ring
      have read_below : read + x % 128 * 2 ^ s < 2 ^ (s + 7) := by
        have digit : x % 128 + 1 ≤ 128 := by omega
        have scaled := Nat.mul_le_mul_right (2 ^ s) digit
        rw [Nat.add_mul] at scaled
        rw [wider,Nat.mul_comm (2 ^ s)]
        omega
      have shorter : x / 128 * 2 ^ (s + 7) < 2 ^ 64 := by omega
      have fewer : x / 128 < 2 ^ (7 * (room + 1)) := by
        rw [Nat.div_lt_iff_lt_mul (by decide)]
        refine lt_of_lt_of_eq enough ?_
        ring
      rw [putUvarintFrom,if_pos more,List.cons_append,uvarintFrom,if_neg (by omega),if_neg continues,payload,
        or_shift below,bits,ih (by omega) read_below fewer (by omega) shorter,split]
      simp only [List.length_cons,Prod.mk.injEq,true_and]
      omega
    · rw [putUvarintFrom,if_neg more]
      exact uvarintFrom_last rest shifted below (by omega) (by omega) fits

/-- What is put is read, whatever follows it. -/
theorem uvarint_putUvarint (x : UInt64) (rest : List UInt8) :
    uvarint (putUvarint x ++ rest) = (x.toNat,((putUvarint x).length : Int)) := by
  have bound := x.toNat_lt
  have nothing : 0 < 2 ^ 0 := by decide
  have read := uvarintFrom_put 9 (x := x.toNat) (i := 0) rest rfl nothing (by omega) (by decide) (by omega)
  unfold uvarint putUvarint
  simpa [MaxVarintLen64] using read

theorem putUvarint_length_pos (x : UInt64) : 0 < (putUvarint x).length := by
  unfold putUvarint MaxVarintLen64 putUvarintFrom
  split <;> simp

theorem putUvarintFrom_length_le (room groups : Nat) {x : Nat} (small : x < 2 ^ (7 * (groups + 1))) :
    (putUvarintFrom room x).length ≤ groups + 1 := by
  induction room generalizing groups x with
  | zero => simp [putUvarintFrom]
  | succ room ih =>
    unfold putUvarintFrom
    split
    next more =>
      cases groups with
      | zero => omega
      | succ groups =>
        have fewer : x >>> 7 < 2 ^ (7 * (groups + 1)) := by
          rw [Nat.shiftRight_eq_div_pow,Nat.div_lt_iff_lt_mul (by decide),← pow_add]
          exact small
        simpa using ih groups fewer
    next => simp

end Vbe.Library.Varints
