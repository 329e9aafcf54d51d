import Mathlib.Data.Nat.Digits.Defs
import Mathlib.Data.Int.Order.Lemmas

/-! Times of package time, as nanoseconds since 1970 at a location. Dates are those of the
Gregorian calendar, in both directions and without a bound. -/
namespace Vbe.Policy

section Calendar

/-- Days since 1 January 1970. The month counts from 1, and the days of a month may run out of it. -/
def daysSinceEpoch (year month day : Int) : Int :=
  -- years start in March here, so that a leap day ends its year
  let y := if month ≤ 2 then year - 1 else year
  let yearOfEra := y % 400
  let dayOfYear := (153 * (if month > 2 then month - 3 else month + 9) + 2) / 5 + day - 1
  let dayOfEra := yearOfEra * 365 + yearOfEra / 4 - yearOfEra / 100 + dayOfYear
  y / 400 * 146097 + dayOfEra - 719468

structure Date where
  year : Int
  month : Nat
  day : Nat
deriving DecidableEq

def absDate (days : Int) : Date :=
  let z := days + 719468
  let dayOfEra := z % 146097
  let yearOfEra := (dayOfEra - dayOfEra / 1460 + dayOfEra / 36524 - dayOfEra / 146096) / 365
  let dayOfYear := dayOfEra - (365 * yearOfEra + yearOfEra / 4 - yearOfEra / 100)
  let fromMarch := (5 * dayOfYear + 2) / 153
  let month := if fromMarch < 10 then fromMarch + 3 else fromMarch - 9
  let y := yearOfEra + z / 146097 * 400
  ⟨if month ≤ 2 then y + 1 else y,month.toNat,(dayOfYear - (153 * fromMarch + 2) / 5 + 1).toNat⟩

theorem absDate_year_nonneg {days : Int} (late : -719468 ≤ days) : 0 ≤ (absDate days).year := by
  have year : ∀ y : Int, 0 ≤ y → ∀ month : Int, 0 ≤ if month ≤ 2 then y + 1 else y := by
    intro y nonneg month
    split
    next => omega
    next => exact nonneg
  apply year
  omega

theorem yearOfEra_bounds {e : Int} (nonneg : 0 ≤ e) (inside : e < 146097) :
    let y := (e - e / 1460 + e / 36524 - e / 146096) / 365
    0 ≤ y ∧ y < 400 ∧ 0 ≤ e - (365 * y + y / 4 - y / 100) ∧ e - (365 * y + y / 4 - y / 100) ≤ 365 := by
  intro y
  by_cases last : e = 146096
  · subst last
    decide
  · have century : e / 36524 ≤ 3 := by omega
    have era : e / 146096 = 0 := by omega
    obtain ⟨d,day⟩ : ∃ d, d = e / 36524 := ⟨_,rfl⟩
    obtain ⟨q,cycle⟩ : ∃ q, q = (e - 36524 * d) / 1461 := ⟨_,rfl⟩
    obtain ⟨r,rest⟩ : ∃ r, r = (e - 36524 * d) % 1461 := ⟨_,rfl⟩
    obtain ⟨b,leap⟩ : ∃ b, b = (24 * d + q + r) / 1460 := ⟨_,rfl⟩
    have leaps : e / 1460 = 25 * d + q + b := by omega
    have year : y = 100 * d + 4 * q + (r - b) / 365 := by
      have : y = (e - e / 1460 + e / 36524 - e / 146096) / 365 := rfl
      omega
    clear_value y
    have quarter : y / 4 = 25 * d + q := by omega
    have hundred : y / 100 = d := by omega
    rw [quarter,hundred]
    omega

/-- The date of a day is the date that the day is counted from. -/
theorem daysSinceEpoch_absDate (days : Int) :
    daysSinceEpoch (absDate days).year (absDate days).month (absDate days).day = days := by
  obtain ⟨e,era⟩ : ∃ e, e = (days + 719468) % 146097 := ⟨_,rfl⟩
  obtain ⟨positive,small,first,last⟩ := yearOfEra_bounds (e := e) (by omega) (by omega)
  unfold absDate daysSinceEpoch
  simp only
  rw [← era]
  generalize (e - e / 1460 + e / 36524 - e / 146096) / 365 = y at positive small first last ⊢
  obtain ⟨doy,dayOfYear⟩ : ∃ doy, doy = e - (365 * y + y / 4 - y / 100) := ⟨_,rfl⟩
  rw [← dayOfYear] at first last ⊢
  obtain ⟨m,fromMarch⟩ : ∃ m, m = (5 * doy + 2) / 153 := ⟨_,rfl⟩
  obtain ⟨c,eras⟩ : ∃ c, c = (days + 719468) / 146097 := ⟨_,rfl⟩
  rw [← fromMarch,← eras]
  have year : (y + c * 400) % 400 = y ∧ (y + c * 400) / 400 = c := by omega
  have inMonth : 0 ≤ doy - (153 * m + 2) / 5 + 1 := by omega
  rw [Int.toNat_of_nonneg inMonth]
  by_cases spring : m < 10
  · rw [if_pos spring,Int.toNat_of_nonneg (by omega),if_neg (by omega),if_neg (by omega),if_pos (by omega),year.1,year.2,
      add_sub_cancel_right]
    omega
  · rw [if_neg spring,Int.toNat_of_nonneg (by omega),if_pos (by omega),if_pos (by omega),if_neg (by omega),
      add_sub_cancel_right,year.1,year.2,sub_add_cancel]
    omega

/-- The year and the week of the Thursday of a week. -/
def isoWeek (days : Int) : Int × Nat :=
  let thursday := days - (days + 3) % 7 + 3
  let year := (absDate thursday).year
  (year,((thursday - daysSinceEpoch year 1 1) / 7).toNat + 1)

theorem isoWeek_year_nonneg {days : Int} (late : -719000 ≤ days) : 0 ≤ (isoWeek days).1 :=
  absDate_year_nonneg (by omega)

end Calendar

section Times

/-- An offset from UTC, in seconds, and the seconds since 1970 between which it is in force. -/
structure Zone where
  offset : Int
  start : Int
  stop : Int

/-- The zones of a location. An offset is less than a week. -/
structure Location where
  lookup : Int → Zone
  bounded : ∀ sec, |(lookup sec).offset| < 604800

def UTC : Location := ⟨fun _ => ⟨0,0,0⟩,fun _ => by decide⟩

structure Time where
  unixNano : Int
  loc : Location

/-- 1 January of the year 1. -/
def zeroTime : Time := ⟨-62135596800 * 1000000000,UTC⟩

def hour : Int64 := 3600000000000

namespace Time

def After (t u : Time) : Bool := u.unixNano < t.unixNano

def Before (t u : Time) : Bool := t.unixNano < u.unixNano

def Add (t : Time) (d : Int64) : Time := {t with unixNano := t.unixNano + d.toInt}

/-- Differences that a duration cannot hold are its bounds. -/
def Sub (t u : Time) : Int64 :=
  Int64.ofInt (max Int64.minValue.toInt (min Int64.maxValue.toInt (t.unixNano - u.unixNano)))

def IsZero (t : Time) : Bool := t.unixNano = zeroTime.unixNano

def Local (localZone : Location) (t : Time) : Time := {t with loc := localZone}

/-- Down to a multiple of the duration since the zero time. -/
def Truncate (t : Time) (d : Int64) : Time :=
  if d ≤ 0 then t else {t with unixNano := t.unixNano - (t.unixNano - zeroTime.unixNano) % d.toInt}

/-- Seconds since 1970 of the clocks at the location. -/
def wallSeconds (t : Time) : Int :=
  let sec := t.unixNano / 1000000000
  sec + (t.loc.lookup sec).offset

def day (t : Time) : Int := t.wallSeconds / 86400

def Date (t : Time) : Policy.Date := absDate t.day

def Hour (t : Time) : Nat := (t.wallSeconds % 86400 / 3600).toNat

def ISOWeek (t : Time) : Int × Nat := isoWeek t.day

/-- The time at which the clocks at a location show some seconds. -/
def ofWallSeconds (loc : Location) (wall nsec : Int) : Time :=
  let zone := loc.lookup wall
  let utc := wall - zone.offset
  let sec :=
    if zone.offset = 0 then wall
    else if utc < zone.start ∨ zone.stop ≤ utc then wall - (loc.lookup utc).offset
    else utc
  ⟨sec * 1000000000 + nsec,loc⟩

/-- Months and days that run out of their year and month go on in the next ones. -/
def AddDate (t : Time) (years months days : Int64) : Time :=
  let date := t.Date
  let month := date.month - 1 + months.toInt
  let year := date.year + years.toInt + month / 12
  let first := daysSinceEpoch year (month % 12 + 1) 1
  ofWallSeconds t.loc ((first + date.day - 1 + days.toInt) * 86400 + t.wallSeconds % 86400) (t.unixNano % 1000000000)

end Time

/-- Nanoseconds since 1970. -/
abbrev UTCTimestamp := Int64

def UTCTimestamp.ToTime (localZone : Location) (u : UTCTimestamp) : Time := ⟨u.toInt,localZone⟩

theorem UTCTimestamp.day_bounded (loc : Location) (u : UTCTimestamp) : -719000 ≤ (UTCTimestamp.ToTime loc u).day := by
  have early := u.minValue_le_toInt
  have least : Int64.minValue.toInt = -9223372036854775808 := by decide
  have offset := abs_lt.mp (loc.bounded (u.toInt / 1000000000))
  rw [Time.day,Time.wallSeconds,UTCTimestamp.ToTime]
  simp only
  omega

end Times

section Texts

def padded (width n : Nat) : String := String.ofList (List.leftpad width '0' (Nat.toDigits 10 n))

theorem padded_toList (width n : Nat) :
    (padded width n).toList = List.replicate (width - (Nat.toDigits 10 n).length) '0' ++ Nat.toDigits 10 n := by
  rw [padded,String.toList_ofList]
  rfl

theorem padded_injective {width n m : Nat} (same : padded width n = padded width m) : n = m := by
  have value (n : Nat) : Nat.ofDigitChars 10 (padded width n).toList 0 = n := by
    rw [padded_toList,Nat.ofDigitChars_append,Nat.ofDigitChars_replicate_zero,Nat.mul_zero]
    exact Nat.ofDigitChars_ten_toDigits
  rw [← value n,same,value m]

theorem notMem_padded {width n : Nat} {c : Char} (separator : c.isDigit = false) : c ∉ (padded width n).toList := by
  rw [padded_toList,List.mem_append]
  rintro (zero | digit)
  · rw [List.eq_of_mem_replicate zero] at separator
    contradiction
  · rw [Nat.isDigit_of_mem_toDigits (by decide) (by decide) digit] at separator
    contradiction

/-- Texts that end in a separator and a number are equal where both parts are. -/
theorem joined_injective {front front' back back' : List Char} {c : Char} (last : c ∉ back) (last' : c ∉ back')
    (same : front ++ c :: back = front' ++ c :: back') : front = front' ∧ back = back' := by
  rcases List.append_eq_append_iff.mp same with ⟨between,longer,rest⟩ | ⟨between,longer,rest⟩
  · cases between with
    | nil => exact ⟨by rw [longer,List.append_nil],(List.cons.inj rest).2⟩
    | cons _ between =>
      have inside : c ∈ back := by
        rw [(List.cons.inj rest).2]
        simp
      exact absurd inside last
  · cases between with
    | nil => exact ⟨by rw [longer,List.append_nil],(List.cons.inj rest).2.symm⟩
    | cons _ between =>
      have inside : c ∈ back' := by
        rw [(List.cons.inj rest).2]
        simp
      exact absurd inside last'

theorem separated_injective {front front' sep : String} {c : Char} (single : sep.toList = [c]) (separator : c.isDigit = false)
    {width n n' : Nat} (same : front ++ sep ++ padded width n = front' ++ sep ++ padded width n') : front = front' ∧ n = n' := by
  have chars := congrArg String.toList same
  simp only [String.toList_append,single,List.append_assoc,List.singleton_append] at chars
  obtain ⟨first,second⟩ := joined_injective (notMem_padded separator) (notMem_padded separator) chars
  exact ⟨String.ext first,padded_injective (String.ext second)⟩

theorem count_padded {width n : Nat} {c : Char} (separator : c.isDigit = false) : (padded width n).toList.count c = 0 :=
  List.count_eq_zero.mpr (notMem_padded separator)

end Texts

end Vbe.Policy
