import Mathlib.Data.List.Sort
import Vbe.Library.Quotas
import Vbe.Policy.Times

/-! Retention of the snapshots of a source: the reasons to keep each of them, and which expire. -/
namespace Vbe.Policy
open Vbe.Library.Quotas Rules

section Policies

abbrev OptionalInt := Option Int64

def OptionalInt.OrDefault (b : OptionalInt) (value : Int64) : Int64 := b.getD value

structure RetentionPolicy where
  keepLatest : OptionalInt
  keepHourly : OptionalInt
  keepDaily : OptionalInt
  keepWeekly : OptionalInt
  keepMonthly : OptionalInt
  keepAnnual : OptionalInt

inductive PeriodType
  | latest
  | annual
  | monthly
  | weekly
  | daily
  | hourly
deriving DecidableEq

def PeriodType.name : PeriodType → String
  | .latest => "latest"
  | .annual => "annual"
  | .monthly => "monthly"
  | .weekly => "weekly"
  | .daily => "daily"
  | .hourly => "hourly"

def RetentionPolicy.keep (r : RetentionPolicy) : PeriodType → OptionalInt
  | .latest => r.keepLatest
  | .annual => r.keepAnnual
  | .monthly => r.keepMonthly
  | .weekly => r.keepWeekly
  | .daily => r.keepDaily
  | .hourly => r.keepHourly

/-- The policy with another value for one type. -/
def RetentionPolicy.withKeep (r : RetentionPolicy) (t : PeriodType) (value : OptionalInt) : RetentionPolicy :=
  match t with
  | .latest => {r with keepLatest := value}
  | .annual => {r with keepAnnual := value}
  | .monthly => {r with keepMonthly := value}
  | .weekly => {r with keepWeekly := value}
  | .daily => {r with keepDaily := value}
  | .hourly => {r with keepHourly := value}

@[simp] theorem RetentionPolicy.keep_withKeep_of_ne (r : RetentionPolicy) {t t' : PeriodType} (other : t' ≠ t)
    (value : OptionalInt) : (r.withKeep t value).keep t' = r.keep t' := by
  cases t with
  | latest | annual | monthly | weekly | daily | hourly =>
    cases t' with
    | latest | annual | monthly | weekly | daily | hourly => first | rfl | exact absurd rfl other

/-- The number of latest snapshots to keep: all of them where the values add up to 0. -/
def RetentionPolicy.EffectiveKeepLatest (r : RetentionPolicy) : OptionalInt :=
  if r.keepLatest.OrDefault 0 + r.keepHourly.OrDefault 0 + r.keepDaily.OrDefault 0 + r.keepWeekly.OrDefault 0 +
      r.keepMonthly.OrDefault 0 + r.keepAnnual.OrDefault 0 = 0 then some Int64.maxValue
  else r.keepLatest

end Policies

section Manifests

structure SourceInfo where
  host : String
  userName : String
  path : String

structure Manifest where
  id : String
  source : SourceInfo
  startTime : UTCTimestamp
  incompleteReason : String
  retentionReasons : List String
  pins : List String

/-- An order of manifests by descending start time. Manifests of one start time come in any order. -/
structure SortedByTime (manifests : List Manifest) where
  order : List (Fin manifests.length)
  perm : order.Perm (List.finRange manifests.length)
  descending : order.Pairwise fun p q => (manifests.get q).startTime ≤ (manifests.get p).startTime

def SortedByTime.sorted {manifests : List Manifest} (s : SortedByTime manifests) : List Manifest := s.order.map manifests.get

end Manifests

section Tags

def prefixSuffix (s : String) : String × String :=
  let chars := s.toList
  if '-' ∈ chars then
    let suffix := (chars.reverse.takeWhile (· ≠ '-')).reverse
    (String.ofList (chars.take (chars.length - suffix.length - 1)),String.ofList suffix)
  else (s,"")

def retentionPrefixSortValue (label : String) : Nat :=
  match label with
  | "latest" => 1
  | "hourly" => 2
  | "daily" => 3
  | "weekly" => 4
  | "monthly" => 5
  | "annual" => 6
  | _ => 0

/-- Whether one tag comes before another. -/
def tagLess (tag tag' : String) : Bool :=
  let (p1,s1) := prefixSuffix tag
  let (p2,s2) := prefixSuffix tag'
  let l := retentionPrefixSortValue p1
  let r := retentionPrefixSortValue p2
  if l ≠ r then l < r else if p1 ≠ p2 then p1 < p2 else s1 < s2

def SortRetentionTags (tags : List String) : List String := tags.insertionSort fun tag tag' => ¬ tagLess tag' tag

end Tags

variable (localZone : Location)

section Cutoffs

def yearsAgo (base : Time) (n : Int64) : Time := base.AddDate (-n) 0 0
def monthsAgo (base : Time) (n : Int64) : Time := base.AddDate 0 (-n) 0
def daysAgo (base : Time) (n : Int64) : Time := base.AddDate 0 0 (-n)
def weeksAgo (base : Time) (n : Int64) : Time := base.AddDate 0 0 (-n * 7)
def hoursAgo (base : Time) (n : Int64) : Time := base.Add (-n * hour)

structure CutoffTimes where
  annual : Time
  monthly : Time
  daily : Time
  hourly : Time
  weekly : Time

def later (latest : Time) (s : Manifest) : Time :=
  let time := UTCTimestamp.ToTime localZone s.startTime
  if time.After latest then time else latest

def maxStartTime (manifests : List Manifest) : Time := manifests.foldl (later localZone) zeroTime

def maxCompleteStartTime (manifests : List Manifest) : Time :=
  (manifests.filter (·.incompleteReason = "")).foldl (later localZone) zeroTime

def cutoffTime (maxComplete : Time) (setting : OptionalInt) (add : Time → Int64 → Time) : Time :=
  match setting with
  | some value => add maxComplete value
  | none => maxComplete.Add (365 * 24 * hour)

def RetentionPolicy.cutoffs (r : RetentionPolicy) (maxComplete : Time) : CutoffTimes where
  annual := cutoffTime maxComplete r.keepAnnual yearsAgo
  monthly := cutoffTime maxComplete r.keepMonthly monthsAgo
  daily := cutoffTime maxComplete r.keepDaily daysAgo
  hourly := cutoffTime maxComplete r.keepHourly hoursAgo
  weekly := cutoffTime maxComplete r.keepWeekly weeksAgo

end Cutoffs

section Reasons

structure Case where
  cutoffTime : Time
  timePeriodID : String
  timePeriodType : PeriodType
  max : OptionalInt

def year (u : UTCTimestamp) : String := padded 4 (UTCTimestamp.ToTime UTC u).Date.year.toNat
def yearMonth (u : UTCTimestamp) : String := year u ++ "-" ++ padded 2 (UTCTimestamp.ToTime UTC u).Date.month
def yearMonthDay (u : UTCTimestamp) : String := yearMonth u ++ "-" ++ padded 2 (UTCTimestamp.ToTime UTC u).Date.day
def yearMonthDayHour (u : UTCTimestamp) : String := yearMonthDay u ++ " " ++ padded 2 (UTCTimestamp.ToTime UTC u).Hour

/-- The week of the clocks at the local zone. -/
def yearWeek (u : UTCTimestamp) : String :=
  let week := (UTCTimestamp.ToTime localZone u).ISOWeek
  padded 4 week.1.toNat ++ "-" ++ padded 2 week.2

def RetentionPolicy.cases (r : RetentionPolicy) (i : Nat) (s : Manifest) (cutoff : CutoffTimes) : List Case :=
  [⟨zeroTime,padded 0 i,.latest,r.EffectiveKeepLatest⟩,
    ⟨cutoff.annual,year s.startTime,.annual,r.keepAnnual⟩,
    ⟨cutoff.monthly,yearMonth s.startTime,.monthly,r.keepMonthly⟩,
    ⟨cutoff.weekly,yearWeek localZone s.startTime,.weekly,r.keepWeekly⟩,
    ⟨cutoff.daily,yearMonthDay s.startTime,.daily,r.keepDaily⟩,
    ⟨cutoff.hourly,yearMonthDayHour s.startTime,.hourly,r.keepHourly⟩]

/-- The reason of a type with a number. -/
def reason (t : PeriodType) (n : Nat) : String := t.name ++ "-" ++ padded 0 n

/-- The cases of a snapshot one after another. The ledger holds the identifiers seen so far and the
number of reasons of each type. -/
def keepReasons (s : Manifest) : List Case → Ledger PeriodType String → Ledger PeriodType String × List String
  | [],seen => (seen,[])
  | c :: cases,seen =>
    match c.max with
    | none => keepReasons s cases seen
    | some max =>
      if (UTCTimestamp.ToTime localZone s.startTime).Before c.cutoffTime then keepReasons s cases seen
      else if c.timePeriodID ∈ seen.taken then keepReasons s cases seen
      else if (seen.count c.timePeriodType : Int) < max.toInt then
        let seen' := seen.take c.timePeriodType c.timePeriodID
        let rest := keepReasons s cases seen'
        (rest.1,reason c.timePeriodType (seen'.count c.timePeriodType) :: rest.2)
      else keepReasons s cases seen

def RetentionPolicy.getRetentionReasons (r : RetentionPolicy) (i : Nat) (s : Manifest) (cutoff : CutoffTimes)
    (seen : Ledger PeriodType String) : Ledger PeriodType String × List String :=
  if s.incompleteReason ≠ "" then (seen,[])
  else
    let kept := keepReasons localZone s (r.cases localZone i s cutoff) seen
    (kept.1,SortRetentionTags kept.2)

/-- The reasons of the complete snapshots, from the newest on. -/
def RetentionPolicy.applyReasons (r : RetentionPolicy) (cutoff : CutoffTimes) :
    Nat → Ledger PeriodType String → List Manifest → List Manifest
  | _,_,[] => []
  | i,seen,s :: sorted =>
    if s.incompleteReason = "" then
      let kept := r.getRetentionReasons localZone i s cutoff seen
      {s with retentionReasons := kept.2} :: applyReasons r cutoff (i + 1) kept.1 sorted
    else {s with retentionReasons := []} :: applyReasons r cutoff (i + 1) seen sorted

def retainIncompleteSnapshotsYoungerThan : Int64 := 4 * hour
def retainIncompleteSnapshotMinimumCount : Nat := 3

/-- The incomplete snapshots before the first complete one, as long as they are young or few. -/
def tagIncomplete (newest : Time) : Nat → List Manifest → List Manifest
  | _,[] => []
  | i,s :: sorted =>
    if s.incompleteReason = "" then s :: sorted
    else if newest.Sub (UTCTimestamp.ToTime localZone s.startTime) < retainIncompleteSnapshotsYoungerThan ∨
        i < retainIncompleteSnapshotMinimumCount then
      {s with retentionReasons := s.retentionReasons ++ ["incomplete"]} :: tagIncomplete newest (i + 1) sorted
    else s :: sorted

/-- The manifests in their own order, with their reasons. -/
def RetentionPolicy.ComputeRetentionReasons (r : RetentionPolicy) (manifests : List Manifest) (s : SortedByTime manifests) :
    List Manifest :=
  let cutoff := r.cutoffs (maxCompleteStartTime localZone manifests)
  let applied := r.applyReasons localZone cutoff 0 Ledger.empty s.sorted
  let tagged := tagIncomplete localZone (maxStartTime localZone manifests) 0 applied
  (List.finRange manifests.length).map fun p => tagged.getD (s.order.idxOf p) (manifests.get p)

end Reasons

section Expiry

inductive ExpireError
  | effectivePolicy
  /-- The first of no snapshots. -/
  | panicked
deriving DecidableEq

def expire (toDelete : List String) : List Manifest → List String
  | [] => toDelete
  | s :: snapshots =>
    if s.retentionReasons.length = 0 ∧ s.pins.length = 0 then expire (toDelete ++ [s.id]) snapshots
    else expire toDelete snapshots

def getExpiredSnapshotsForSource (GetEffectivePolicy : SourceInfo → Option RetentionPolicy) (snapshots : List Manifest)
    (order : SortedByTime snapshots) : Except ExpireError (List String) :=
  match snapshots.head? with
  | none => .error .panicked
  | some first =>
    match GetEffectivePolicy first.source with
    | none => .error .effectivePolicy
    | some pol => .ok (expire [] (pol.ComputeRetentionReasons localZone snapshots order))

end Expiry

end Vbe.Policy
