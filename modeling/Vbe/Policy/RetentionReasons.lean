import Vbe.Policy.RetentionPolicy

/-! What the retention policy of a source means: each type keeps the newest complete snapshot of
each of its latest periods. All types share one set of the texts of periods, so a type is as it
is on its own exactly where no period it keeps has the text of a period that another type keeps. -/
namespace Vbe.Policy
open Vbe.Library.Quotas Rules

variable (localZone : Location)

section Periods

def periodTypes : List PeriodType := [.latest,.annual,.monthly,.weekly,.daily,.hourly]

/-- The period of a type that the snapshot at a place of the sorted list is in. -/
def period (t : PeriodType) (i : Nat) (u : UTCTimestamp) : List Int :=
  let time := UTCTimestamp.ToTime UTC u
  match t with
  | .latest => [i]
  | .annual => [time.Date.year]
  | .monthly => [time.Date.year,time.Date.month]
  | .weekly => [(UTCTimestamp.ToTime localZone u).ISOWeek.1,(UTCTimestamp.ToTime localZone u).ISOWeek.2]
  | .daily => [time.Date.year,time.Date.month,time.Date.day]
  | .hourly => [time.Date.year,time.Date.month,time.Date.day,time.Hour]

/-- The text of a period. -/
def timePeriodID (t : PeriodType) (i : Nat) (u : UTCTimestamp) : String :=
  match t with
  | .latest => padded 0 i
  | .annual => year u
  | .monthly => yearMonth u
  | .weekly => yearWeek localZone u
  | .daily => yearMonthDay u
  | .hourly => yearMonthDayHour u

variable {localZone}

theorem year_injective {u v : UTCTimestamp} (same : year u = year v) :
    (UTCTimestamp.ToTime UTC u).Date.year = (UTCTimestamp.ToTime UTC v).Date.year := by
  have nonneg (u : UTCTimestamp) : 0 ≤ (UTCTimestamp.ToTime UTC u).Date.year :=
    absDate_year_nonneg ((by decide : (-719468 : Int) ≤ -719000).trans (u.day_bounded UTC))
  have equal := padded_injective same
  have first := nonneg u
  have second := nonneg v
  omega

theorem week_injective {u v : UTCTimestamp} (same : yearWeek localZone u = yearWeek localZone v) :
    (UTCTimestamp.ToTime localZone u).ISOWeek = (UTCTimestamp.ToTime localZone v).ISOWeek := by
  have nonneg (u : UTCTimestamp) : 0 ≤ (UTCTimestamp.ToTime localZone u).ISOWeek.1 :=
    isoWeek_year_nonneg (u.day_bounded localZone)
  obtain ⟨years,weeks⟩ := separated_injective rfl rfl same
  have equal := padded_injective years
  have first := nonneg u
  have second := nonneg v
  exact Prod.ext (by omega) weeks

/-- The texts of one type are equal exactly for the same periods. -/
theorem timePeriodID_eq_iff {t : PeriodType} {i j : Nat} {u v : UTCTimestamp} :
    timePeriodID localZone t i u = timePeriodID localZone t j v ↔ period localZone t i u = period localZone t j v := by
  constructor
  · intro same
    cases t with
    | latest => simpa [period] using padded_injective same
    | annual => simpa [period] using year_injective same
    | monthly =>
      obtain ⟨years,months⟩ := separated_injective rfl rfl same
      simp [period,year_injective years,months]
    | weekly => simp [period,week_injective same]
    | daily =>
      obtain ⟨front,days⟩ := separated_injective rfl rfl same
      obtain ⟨years,months⟩ := separated_injective rfl rfl front
      simp [period,year_injective years,months,days]
    | hourly =>
      obtain ⟨front,hours⟩ := separated_injective rfl rfl same
      obtain ⟨front,days⟩ := separated_injective rfl rfl front
      obtain ⟨years,months⟩ := separated_injective rfl rfl front
      simp [period,year_injective years,months,days,hours]
  · intro same
    cases t with
    | latest | annual | monthly | weekly | daily | hourly =>
      simp [period] at same
      simp [timePeriodID,year,yearMonth,yearMonthDay,yearMonthDayHour,yearWeek,same]

/-- The hyphens and the spaces of the texts of a type. -/
def separators : PeriodType → Nat × Nat
  | .latest => (0,0)
  | .annual => (0,0)
  | .monthly => (1,0)
  | .weekly => (1,0)
  | .daily => (2,0)
  | .hourly => (2,1)

theorem count_separators (t : PeriodType) (i : Nat) (u : UTCTimestamp) :
    ((timePeriodID localZone t i u).toList.count '-',(timePeriodID localZone t i u).toList.count ' ') = separators t := by
  have digits (c : Char) (separator : c.isDigit = false) (width n : Nat) := @count_padded width n c separator
  cases t with
  | latest | annual | monthly | weekly | daily | hourly =>
    simp [timePeriodID,year,yearMonth,yearMonthDay,yearMonthDayHour,yearWeek,separators,digits,List.count_append]

end Periods

section Reference

/-- How many a keep value keeps. -/
def OptionalInt.limit (b : OptionalInt) : Nat := (b.OrDefault 0).toInt.toNat

namespace RetentionPolicy
variable (r : RetentionPolicy)

def cutoff (maxComplete : Time) : PeriodType → Time
  | .latest => zeroTime
  | .annual => (r.cutoffs maxComplete).annual
  | .monthly => (r.cutoffs maxComplete).monthly
  | .weekly => (r.cutoffs maxComplete).weekly
  | .daily => (r.cutoffs maxComplete).daily
  | .hourly => (r.cutoffs maxComplete).hourly

/-- Complete snapshots that are not older than the cutoff of a type. -/
def admits (maxComplete : Time) (t : PeriodType) (s : Manifest) : Bool :=
  s.incompleteReason = "" && !(UTCTimestamp.ToTime localZone s.startTime).Before (r.cutoff maxComplete t)

def quota (t : PeriodType) : Nat := (r.keep t).limit

/-- Each type on its own, over the snapshots with their places. -/
def periods (maxComplete : Time) : Rules PeriodType (Manifest × Nat) (List Int) where
  key t a := period localZone t a.2 a.1.startTime
  admits t a := r.admits localZone maxComplete t a.1
  quota := r.quota

/-- The same with texts for periods. -/
def texts (maxComplete : Time) : Rules PeriodType (Manifest × Nat) String where
  key t a := timePeriodID localZone t a.2 a.1.startTime
  admits t a := r.admits localZone maxComplete t a.1
  quota := r.quota

variable (manifests : List Manifest) (s : SortedByTime manifests)

/-- The reasons of the snapshot at a place of the sorted list. -/
def reasonsAt (j : Nat) : List String :=
  ((s.order[j]?.bind fun p => (r.ComputeRetentionReasons localZone manifests s)[p.val]?).map (·.retentionReasons)).getD []

/-- The number that a type on its own gives to the snapshot at a place of the sorted list. -/
def expected (j : Nat) (t : PeriodType) : Option Nat :=
  s.sorted.zipIdx[j]?.bind
    ((r.periods localZone (maxCompleteStartTime localZone manifests)).number t (s.sorted.zipIdx.take j))

/-- Every snapshot has the reasons that each type on its own gives it. -/
def Reference : Prop := ∀ j t n, reason t n ∈ r.reasonsAt localZone manifests s j ↔ r.expected localZone manifests s j t = some n

/-- The snapshots without reasons and pins expire. -/
def Expires : Prop :=
  ∀ GetEffectivePolicy : SourceInfo → Option RetentionPolicy, (∀ m ∈ manifests, GetEffectivePolicy m.source = some r) →
    manifests ≠ [] → getExpiredSnapshotsForSource localZone GetEffectivePolicy manifests s =
      .ok (((r.ComputeRetentionReasons localZone manifests s).filter fun m => m.retentionReasons = [] ∧ m.pins = []).map (·.id))

/-- What retention means: each type is as it is on its own, before and after the value of a type
is changed; the reasons of the other types are the same; and what has no reason and no pin expires. -/
structure Semantics (t : PeriodType) (value : OptionalInt) : Prop where
  reference : r.Reference localZone manifests s
  changed : (r.withKeep t value).Reference localZone manifests s
  others : ∀ j t' n, t' ≠ t → (reason t' n ∈ (r.withKeep t value).reasonsAt localZone manifests s j ↔
    reason t' n ∈ r.reasonsAt localZone manifests s j)
  expires : r.Expires localZone manifests s

/-- No week that is kept has the text of a month that is kept, and no place the text of a year.
Where all snapshots are kept instead of the latest ones, those past the number to keep are at places
that have the text of a year that is kept. -/
structure Distinct : Prop where
  weeks : ∀ k ∈ (r.texts localZone (maxCompleteStartTime localZone manifests)).kept .weekly s.sorted.zipIdx,
    k ∉ (r.texts localZone (maxCompleteStartTime localZone manifests)).kept .monthly s.sorted.zipIdx
  places : ∀ k ∈ (r.texts localZone (maxCompleteStartTime localZone manifests)).kept .latest s.sorted.zipIdx,
    k ∉ (r.texts localZone (maxCompleteStartTime localZone manifests)).kept .annual s.sorted.zipIdx
  all : r.EffectiveKeepLatest ≠ r.keepLatest → ∀ i (inside : i < s.sorted.zipIdx.length),
    Blocked (r.texts localZone (maxCompleteStartTime localZone manifests)) periodTypes .latest (s.sorted.zipIdx.take i)
      s.sorted.zipIdx[i]

end RetentionPolicy

end Reference

section Run
variable {localZone} {r : RetentionPolicy} {maxComplete : Time} {seen : Ledger PeriodType String}

/-- The rules of the code: the texts, and the effective number of latest snapshots. -/
def RetentionPolicy.effective (localZone : Location) (r : RetentionPolicy) (maxComplete : Time) :
    Rules PeriodType (Manifest × Nat) String :=
  (r.texts localZone maxComplete).raise .latest r.EffectiveKeepLatest.limit

def RetentionPolicy.max (r : RetentionPolicy) : PeriodType → OptionalInt
  | .latest => r.EffectiveKeepLatest
  | t => r.keep t

theorem effective_quota (t : PeriodType) :
    (r.effective localZone maxComplete).quota t = (r.max t).limit := by
  cases t with
  | latest | annual | monthly | weekly | daily | hourly => rfl

theorem cases_eq (i : Nat) (s : Manifest) : r.cases localZone i s (r.cutoffs maxComplete) =
    periodTypes.map fun t => ⟨r.cutoff maxComplete t,timePeriodID localZone t i s.startTime,t,r.max t⟩ := rfl

/-- The cases of a complete snapshot are offers to the types one after another. -/
theorem keepReasons_eq {s : Manifest} (complete : s.incompleteReason = "") (i : Nat) (kinds : List PeriodType) :
    keepReasons localZone s (kinds.map fun t => ⟨r.cutoff maxComplete t,timePeriodID localZone t i s.startTime,t,r.max t⟩) seen =
      let offered := (r.effective localZone maxComplete).offerAll (s,i) kinds seen
      (offered.1,offered.2.map fun tag => reason tag.1 tag.2) := by
  induction kinds generalizing seen with
  | nil => rfl
  | cons t kinds ih =>
    have admitted : (r.effective localZone maxComplete).admits t (s,i) =
        !(UTCTimestamp.ToTime localZone s.startTime).Before (r.cutoff maxComplete t) := by
      change r.admits localZone maxComplete t s = _
      simp [RetentionPolicy.admits,complete]
    have key : (r.effective localZone maxComplete).key t (s,i) = timePeriodID localZone t i s.startTime := rfl
    rw [List.map_cons,keepReasons,offerAll,offer,effective_quota,admitted,key]
    simp only
    cases limit : r.max t with
    | none =>
      have zero : OptionalInt.limit none = 0 := rfl
      simp [zero,ih]
    | some value =>
      have own : OptionalInt.limit (some value) = value.toInt.toNat := rfl
      rw [own]
      dsimp only
      by_cases early : (UTCTimestamp.ToTime localZone s.startTime).Before (r.cutoff maxComplete t) = true
      · simp [early,ih]
      · by_cases present : timePeriodID localZone t i s.startTime ∈ seen.taken
        · simp [early,present,ih]
        · by_cases room : (seen.count t : Int) < value.toInt
          · have room' : seen.count t < value.toInt.toNat := by omega
            rw [if_neg early,if_neg present,if_pos room,if_pos ⟨by simpa using early,present,room'⟩,ih]
            simp [Ledger.count_take_self]
          · have room' : ¬ seen.count t < value.toInt.toNat := by omega
            rw [if_neg early,if_neg present,if_neg room,if_neg fun free => room' free.2.2,ih]
            rfl

theorem offerAll_incomplete {s : Manifest} (incomplete : s.incompleteReason ≠ "") (i : Nat) (kinds : List PeriodType) :
    (r.effective localZone maxComplete).offerAll (s,i) kinds seen = (seen,[]) := by
  induction kinds with
  | nil => rfl
  | cons t kinds ih =>
    have refused : (r.effective localZone maxComplete).admits t (s,i) = false := by
      change r.admits localZone maxComplete t s = _
      simp [RetentionPolicy.admits,incomplete]
    rw [offerAll,offer,refused]
    simp [ih]

theorem applyReasons_eq (i : Nat) (sorted : List Manifest) :
    (r.applyReasons localZone (r.cutoffs maxComplete) i seen sorted).map (·.retentionReasons) =
      ((r.effective localZone maxComplete).run periodTypes seen (sorted.zipIdx i)).2.map
        fun tags => SortRetentionTags (tags.map fun tag => reason tag.1 tag.2) := by
  induction sorted generalizing i seen with
  | nil => rfl
  | cons s sorted ih =>
    rw [List.zipIdx_cons,run,RetentionPolicy.applyReasons]
    by_cases complete : s.incompleteReason = ""
    · rw [if_pos complete,RetentionPolicy.getRetentionReasons,if_neg (not_not_intro complete),cases_eq,keepReasons_eq complete]
      simp only [List.map_cons]
      rw [ih]
    · rw [if_neg complete,offerAll_incomplete complete]
      simp only [List.map_cons]
      rw [ih]
      rfl

theorem reason_injective {t t' : PeriodType} {n n' : Nat} (same : reason t n = reason t' n') : t = t' ∧ n = n' := by
  obtain ⟨names,numbers⟩ := separated_injective rfl rfl same
  refine ⟨?_,numbers⟩
  cases t with
  | latest | annual | monthly | weekly | daily | hourly =>
    cases t' with
    | latest | annual | monthly | weekly | daily | hourly => first | rfl | exact absurd names (by decide)

theorem reason_ne_incomplete (t : PeriodType) (n : Nat) : reason t n ≠ "incomplete" := by
  intro same
  have hyphen : '-' ∈ (reason t n).toList := by simp [reason]
  rw [same] at hyphen
  exact absurd hyphen (by decide)

theorem tagIncomplete_length (newest : Time) (i : Nat) (sorted : List Manifest) :
    (tagIncomplete localZone newest i sorted).length = sorted.length := by
  induction sorted generalizing i with
  | nil => rfl
  | cons s sorted ih =>
    rw [tagIncomplete]
    split
    next => rfl
    next =>
      split
      next => rw [List.length_cons,List.length_cons,ih]
      next => rfl

theorem mem_tagIncomplete (newest : Time) (i : Nat) (sorted : List Manifest) (j : Nat) (t : PeriodType) (n : Nat) :
    reason t n ∈ ((tagIncomplete localZone newest i sorted).map (·.retentionReasons)).getD j [] ↔
      reason t n ∈ (sorted.map (·.retentionReasons)).getD j [] := by
  induction sorted generalizing i j with
  | nil => rfl
  | cons s sorted ih =>
    rw [tagIncomplete]
    split
    next => rfl
    next =>
      split
      next =>
        cases j with
        | zero => simp [reason_ne_incomplete]
        | succ j => simpa using ih (i + 1) j
      next => rfl

end Run

section Places
variable {localZone} {r : RetentionPolicy} {manifests : List Manifest} {s : SortedByTime manifests}

theorem applyReasons_length {r : RetentionPolicy} {cutoff : CutoffTimes} (i : Nat) (seen : Ledger PeriodType String)
    (sorted : List Manifest) : (r.applyReasons localZone cutoff i seen sorted).length = sorted.length := by
  induction sorted generalizing i seen with
  | nil => rfl
  | cons s sorted ih =>
    rw [RetentionPolicy.applyReasons]
    split
    next => rw [List.length_cons,List.length_cons,ih]
    next => rw [List.length_cons,List.length_cons,ih]

/-- The snapshot at a place of the sorted list has the reasons of that place. -/
theorem reasonsAt_eq (j : Nat) : r.reasonsAt localZone manifests s j =
    ((tagIncomplete localZone (maxStartTime localZone manifests) 0
      (r.applyReasons localZone (r.cutoffs (maxCompleteStartTime localZone manifests)) 0 Ledger.empty s.sorted)).map
        (·.retentionReasons)).getD j [] := by
  rw [RetentionPolicy.reasonsAt,RetentionPolicy.ComputeRetentionReasons]
  generalize out : tagIncomplete localZone _ 0 (r.applyReasons localZone _ 0 _ s.sorted) = tagged
  have length : tagged.length = s.order.length := by
    rw [← out,tagIncomplete_length,applyReasons_length,SortedByTime.sorted,List.length_map]
  by_cases inside : j < s.order.length
  · have nodup : s.order.Nodup := s.perm.nodup_iff.mpr (List.nodup_finRange _)
    have place : s.order.idxOf s.order[j] = j := nodup.idxOf_getElem j inside
    have there : j < tagged.length := by omega
    simp [inside,place,there]
  · have outside : ¬ j < tagged.length := by omega
    simp [inside,outside]

theorem reason_mem_reasonsAt {j : Nat} {t : PeriodType} {n : Nat} : reason t n ∈ r.reasonsAt localZone manifests s j ↔
    (t,n) ∈ ((r.effective localZone (maxCompleteStartTime localZone manifests)).run periodTypes Ledger.empty
      s.sorted.zipIdx).2.getD j [] := by
  rw [reasonsAt_eq,mem_tagIncomplete,applyReasons_eq,List.getD_eq_getElem?_getD,List.getD_eq_getElem?_getD,List.getElem?_map]
  generalize ((r.effective localZone _).run periodTypes Ledger.empty s.sorted.zipIdx).2[j]? = tags
  cases tags with
  | none => simp
  | some tags =>
    simp only [Option.map_some,Option.getD_some,SortRetentionTags,List.mem_insertionSort,List.mem_map]
    constructor
    · rintro ⟨tag,member,same⟩
      obtain ⟨own,number⟩ := reason_injective same
      rwa [← own,← number]
    · intro member
      exact ⟨(t,n),member,rfl⟩

theorem reference_iff_agrees : r.Reference localZone manifests s ↔
    (r.texts localZone (maxCompleteStartTime localZone manifests)).Agrees periodTypes s.sorted.zipIdx
      ((r.effective localZone (maxCompleteStartTime localZone manifests)).run periodTypes Ledger.empty s.sorted.zipIdx).2 := by
  have recoded (t : PeriodType) (before : List (Manifest × Nat)) (a : Manifest × Nat) :
      (r.texts localZone (maxCompleteStartTime localZone manifests)).number t before a =
        (r.periods localZone (maxCompleteStartTime localZone manifests)).number t before a :=
    number_recoded rfl rfl fun _ _ => timePeriodID_eq_iff
  constructor
  · intro reference j inside t _ n
    rw [← reason_mem_reasonsAt,reference,RetentionPolicy.expected,List.getElem?_eq_getElem inside,Option.bind_some,recoded]
  · intro agrees j t n
    rw [reason_mem_reasonsAt,RetentionPolicy.expected]
    by_cases inside : j < s.sorted.zipIdx.length
    · have every : t ∈ periodTypes := by cases t with | latest | annual | monthly | weekly | daily | hourly => decide
      rw [agrees j inside t every,recoded,List.getElem?_eq_getElem inside,Option.bind_some]
    · have length := (run_taken (r := r.effective localZone (maxCompleteStartTime localZone manifests))
        (g := Ledger.empty) periodTypes s.sorted.zipIdx List.nodup_nil).2.2
      have outside : s.sorted.zipIdx.length ≤ j := by omega
      rw [List.getElem?_eq_none outside,List.getD_eq_getElem?_getD,List.getElem?_eq_none (by omega)]
      simp

theorem separate_iff {maxComplete : Time} {l : List (Manifest × Nat)} :
    (r.texts localZone maxComplete).Separate periodTypes l ↔
      (∀ k ∈ (r.texts localZone maxComplete).kept .weekly l, k ∉ (r.texts localZone maxComplete).kept .monthly l) ∧
        ∀ k ∈ (r.texts localZone maxComplete).kept .latest l, k ∉ (r.texts localZone maxComplete).kept .annual l := by
  have shape (t : PeriodType) (k : String) (member : k ∈ (r.texts localZone maxComplete).kept t l) :
      (k.toList.count '-',k.toList.count ' ') = separators t := by
    obtain ⟨i,inside,_,_,rfl⟩ := kept_numbered member
    exact count_separators t _ _
  constructor
  · intro separate
    exact ⟨separate .weekly (by decide) .monthly (by decide) (by decide),separate .latest (by decide) .annual (by decide) (by decide)⟩
  · rintro ⟨weeks,places⟩ t _ t' _ differs k own common
    have same := (shape t k own).symm.trans (shape t' k common)
    cases t with
    | latest | annual | monthly | weekly | daily | hourly =>
      cases t' with
      | latest | annual | monthly | weekly | daily | hourly =>
        first
        | exact differs rfl
        | exact absurd same (by decide)
        | exact weeks k own common
        | exact weeks k common own
        | exact places k own common
        | exact places k common own

theorem reference_iff_distinct : r.Reference localZone manifests s ↔ r.Distinct localZone manifests s := by
  rw [reference_iff_agrees]
  have nodup : periodTypes.Nodup := by decide
  by_cases effective : r.EffectiveKeepLatest = r.keepLatest
  · have same : r.effective localZone (maxCompleteStartTime localZone manifests) =
        r.texts localZone (maxCompleteStartTime localZone manifests) := by
      rw [RetentionPolicy.effective,raise,effective]
      have unchanged := Function.update_eq_self PeriodType.latest (r.texts localZone (maxCompleteStartTime localZone manifests)).quota
      exact congrArg (fun quota => {r.texts localZone (maxCompleteStartTime localZone manifests) with quota}) unchanged
    rw [same,agrees_iff_separate nodup,separate_iff]
    exact ⟨fun ⟨weeks,places⟩ => ⟨weeks,places,fun differs => absurd effective differs⟩,
      fun distinct => ⟨distinct.weeks,distinct.places⟩⟩
  · have all : r.EffectiveKeepLatest = some Int64.maxValue := by
      rw [RetentionPolicy.EffectiveKeepLatest] at effective ⊢
      split
      next => rfl
      next positive => exact absurd (if_neg positive) effective
    have more : (r.texts localZone (maxCompleteStartTime localZone manifests)).quota .latest < r.EffectiveKeepLatest.limit := by
      rw [all] at effective ⊢
      change r.keepLatest.limit < _
      have most : OptionalInt.limit (some Int64.maxValue) = 9223372036854775807 := by decide
      rw [most]
      cases given : r.keepLatest with
      | none => decide
      | some value =>
        rw [given] at effective
        have differs : value ≠ Int64.maxValue := fun same => effective (congrArg some same.symm)
        change value.toInt.toNat < _
        have bound := value.toInt_le
        have unequal : value.toInt ≠ Int64.maxValue.toInt := fun same => differs (Int64.toInt_inj.mp same)
        have greatest : Int64.maxValue.toInt = 9223372036854775807 := by decide
        omega
    have kinds : periodTypes = .latest :: [.annual,.monthly,.weekly,.daily,.hourly] := rfl
    rw [RetentionPolicy.effective,kinds,agrees_raised_iff more (kinds ▸ nodup),← kinds,separate_iff]
    exact ⟨fun ⟨⟨weeks,places⟩,blocked⟩ => ⟨weeks,places,fun _ => blocked⟩,
      fun distinct => ⟨⟨distinct.weeks,distinct.places⟩,distinct.all effective⟩⟩

end Places

section Semantics
variable {localZone} {r : RetentionPolicy} {manifests : List Manifest} {s : SortedByTime manifests}

/-- The cutoff of a type depends on its own keep value. -/
theorem cutoff_withKeep {t t' : PeriodType} (other : t' ≠ t) (value : OptionalInt) (maxComplete : Time) :
    (r.withKeep t value).cutoff maxComplete t' = r.cutoff maxComplete t' := by
  cases t with
  | latest | annual | monthly | weekly | daily | hourly =>
    cases t' with
    | latest | annual | monthly | weekly | daily | hourly => first | rfl | exact absurd rfl other

theorem expected_withKeep {t t' : PeriodType} (other : t' ≠ t) (value : OptionalInt) (j : Nat) :
    (r.withKeep t value).expected localZone manifests s j t' = r.expected localZone manifests s j t' := by
  rw [RetentionPolicy.expected,RetentionPolicy.expected]
  congr 1
  funext a
  apply number_recoded
  · funext a
    change (r.withKeep t value).admits localZone _ t' a.1 = r.admits localZone _ t' a.1
    rw [RetentionPolicy.admits,RetentionPolicy.admits,cutoff_withKeep other]
  · change ((r.withKeep t value).keep t').limit = (r.keep t').limit
    rw [RetentionPolicy.keep_withKeep_of_ne r other]
  · exact fun _ _ => Iff.rfl

theorem expire_eq (toDelete : List String) (snapshots : List Manifest) : expire toDelete snapshots =
    toDelete ++ (snapshots.filter fun m => m.retentionReasons = [] ∧ m.pins = []).map (·.id) := by
  induction snapshots generalizing toDelete with
  | nil => simp [expire]
  | cons m snapshots ih =>
    by_cases expired : m.retentionReasons = [] ∧ m.pins = []
    · simp [expire,expired,ih]
    · rw [expire,if_neg (by simpa using expired),ih,List.filter_cons_of_neg (by simpa using expired)]

theorem expires : r.Expires localZone manifests s := by
  intro GetEffectivePolicy policy nonempty
  cases manifests with
  | nil => exact absurd rfl nonempty
  | cons m manifests =>
    rw [getExpiredSnapshotsForSource,List.head?_cons]
    simp only
    rw [policy m List.mem_cons_self]
    simp only
    rw [expire_eq]
    rfl

/-- One complete snapshot of 3 January 2024, in the first week of 2024 and in its first month. -/
def firstWeek : List Manifest := [⟨"a",⟨"host","user","/"⟩,1704240000000000000,"",[],[]⟩]

def firstWeekSorted : SortedByTime firstWeek := ⟨[⟨0,by decide⟩],by decide,by decide⟩

/-- One snapshot a week and one a month. -/
def weekAndMonth : RetentionPolicy := ⟨none,none,none,some 1,some 1,none⟩

end Semantics

end Vbe.Policy
