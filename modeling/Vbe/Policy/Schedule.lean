import Mathlib.Data.List.DropRight
import Mathlib.Order.Bounds.Basic
import Vbe.Policy.Policy
import Vbe.Policy.Times

/-! When the next snapshot of a source is made: times of day are placed on today's date, and a place that has
passed is moved by 24 hours. This is the first time that the clock shows the time of day, as long as the
clock is not changed. -/
namespace Vbe.Policies
open Vbe.Policy (Time Location zeroTime daysSinceEpoch)

section Durations

def Second : Int64 := 1000000000

def Minute : Int64 := 60 * Second

def oneDay : Int64 := 24 * 60 * Minute

end Durations

/-- An expression of package cronexpr. The zero time says that there is no next time. -/
structure Cronexpr where
  Next : Time → Time
  later : ∀ t, (Next t).IsZero = false → (Next t).After t

section Functions
variable (localZone : Location) (parse : String → Option Cronexpr)

/-- White space of Unicode. -/
def isSpace (c : Char) : Bool :=
  c ∈ ['\t','\n','\x0b','\x0c','\r',' ','\u0085','\u00a0','\u1680','\u2028','\u2029','\u202f','\u205f','\u3000'] ||
    ('\u2000' ≤ c && c ≤ '\u200a')

def stripCronComment (s : String) : String :=
  String.ofList (((s.toList.takeWhile (· ≠ '#')).dropWhile isSpace).rdropWhile isSpace)

def earlier (n t : Time) : Time := if t.Before n then t else n

def soonest (next : Option Time) (t : Time) : Option Time := some (next.elim t fun n => earlier n t)

/-- The time of day on a date. -/
def TimeOfDay.on (tod : TimeOfDay) (date : Vbe.Policy.Date) : Time :=
  Time.ofWallSeconds localZone (daysSinceEpoch date.year date.month date.day * 86400 + tod.hour.toInt * 3600 + tod.minute.toInt * 60) 0

def TimeOfDay.place (tod : TimeOfDay) (now : Time) : Time := tod.on localZone (now.Local localZone).Date

def localSnapshotTime (now : Time) (tod : TimeOfDay) : Time :=
  let t := tod.place localZone now
  if now.After t then t.Add oneDay else t

def cronNext (now : Time) (e : String) : Option Time :=
  match parse (stripCronComment e) with
  | none => none
  | some ce => if (ce.Next now).IsZero then none else some (ce.Next now)

variable (p : SchedulingPolicy)

def getNextTimeOfDaySnapshot (now : Time) : Option Time :=
  p.timesOfDay.foldl (fun next tod => soonest next (localSnapshotTime localZone now tod)) none

def getNextCronSnapshot (now : Time) : Option Time :=
  p.cron.foldl (fun next e => (cronNext parse now e).elim next (soonest next)) none

def checkMissedSnapshot (now previousSnapshotTime nextSnapshotTime : Time) : Bool :=
  let momentAfterSnapshot := previousSnapshotTime.Add Second
  if p.runMissed.getD false = false then false
  else
    let todSnapshot := getNextTimeOfDaySnapshot localZone p momentAfterSnapshot
    let cronSnapshot := getNextCronSnapshot parse p momentAfterSnapshot
    if todSnapshot.isNone && cronSnapshot.isNone then false
    else
      let nextSnapshot := todSnapshot.elim nextSnapshotTime (earlier nextSnapshotTime)
      let nextSnapshot := cronSnapshot.elim nextSnapshot (earlier nextSnapshot)
      nextSnapshot.Before now && nextSnapshotTime.After (now.Add (30 * Minute))

/-- From the interval. -/
def getNextInterval (now previousSnapshotTime : Time) : Option Time :=
  if p.intervalSeconds = 0 then none
  else
    let interval := p.intervalSeconds * Second
    let nt := (previousSnapshotTime.Add interval).Truncate interval
    some (if nt.Before now then now else nt)

/-- Before a missed run is looked for. -/
def upcoming (previousSnapshotTime now : Time) : Option Time :=
  let next := getNextInterval p now previousSnapshotTime
  let next := (getNextTimeOfDaySnapshot localZone p now).elim next (soonest next)
  (getNextCronSnapshot parse p now).elim next (soonest next)

def NextSnapshotTime (previousSnapshotTime now : Time) : Option Time :=
  if p.manual then none
  else
    let now := now.Local localZone
    let previousSnapshotTime := previousSnapshotTime.Local localZone
    match upcoming localZone parse p previousSnapshotTime now with
    | none => none
    | some next => if checkMissedSnapshot localZone parse p now previousSnapshotTime next then some now else some next

end Functions

section Soonest

/-- A time of the list such that none is earlier, if the list has any. -/
def Soonest (l : List Time) (next : Option Time) : Prop :=
  next.elim (l = []) fun t => t ∈ l ∧ ∀ u ∈ l, t.unixNano ≤ u.unixNano

theorem earlier_cases (n t : Time) :
    earlier n t = t ∧ t.unixNano < n.unixNano ∨ earlier n t = n ∧ n.unixNano ≤ t.unixNano := by
  unfold earlier Time.Before
  by_cases less : t.unixNano < n.unixNano
  · exact .inl ⟨if_pos (decide_eq_true less),less⟩
  · exact .inr ⟨if_neg (by simpa using less),not_lt.mp less⟩

/-- The soonest of two lists is the earlier of both. -/
theorem Soonest.append {l m : List Time} {a b : Option Time} (first : Soonest l a) (second : Soonest m b) :
    Soonest (l ++ m) (b.elim a (soonest a)) := by
  cases b with
  | none =>
    have empty : m = [] := second
    rw [empty,List.append_nil]
    exact first
  | some t =>
    obtain ⟨member,least⟩ := second
    cases a with
    | none =>
      have empty : l = [] := first
      rw [empty,List.nil_append]
      exact ⟨member,least⟩
    | some n =>
      obtain ⟨inside,lower⟩ := first
      change earlier n t ∈ l ++ m ∧ ∀ u ∈ l ++ m, (earlier n t).unixNano ≤ u.unixNano
      rcases earlier_cases n t with ⟨same,order⟩ | ⟨same,order⟩
      · rw [same]
        refine ⟨List.mem_append_right _ member,fun u here => ?_⟩
        rcases List.mem_append.mp here with left | right
        · exact order.le.trans (lower u left)
        · exact least u right
      · rw [same]
        refine ⟨List.mem_append_left _ inside,fun u here => ?_⟩
        rcases List.mem_append.mp here with left | right
        · exact lower u left
        · exact order.trans (least u right)

theorem Soonest.elim_earlier {l m : List Time} {n : Time} {b : Option Time} (first : Soonest l (some n)) (second : Soonest m b) :
    Soonest (l ++ m) (some (b.elim n (earlier n))) := by
  cases b with
  | none => exact first.append second
  | some t => exact first.append second

theorem Soonest.isNone {l : List Time} {next : Option Time} (first : Soonest l next) : next.isNone = true ↔ l = [] := by
  cases next with
  | none => exact iff_of_true rfl first
  | some t => exact iff_of_false (by simp) (List.ne_nil_of_mem first.1)

/-- Some time of the list is before an instant if the soonest is. -/
theorem Soonest.before {l : List Time} {t : Time} (first : Soonest l (some t)) (now : Time) :
    t.Before now = true ↔ ∃ u ∈ l, u.unixNano < now.unixNano := by
  simp only [Time.Before,decide_eq_true_eq]
  exact ⟨fun early => ⟨t,first.1,early⟩,fun ⟨u,here,early⟩ => (first.2 u here).trans_lt early⟩

theorem Soonest.single (t : Time) : Soonest [t] (some t) :=
  ⟨List.mem_singleton_self t,fun _ here => List.mem_singleton.mp here ▸ le_rfl⟩

theorem Soonest.foldl {l : List Time} {next : Option Time} (first : Soonest l next) (more : List Time) :
    Soonest (l ++ more) (more.foldl soonest next) := by
  induction more generalizing l next with
  | nil => rwa [List.append_nil]
  | cons t more ih =>
    rw [← List.singleton_append,← List.append_assoc]
    exact ih (first.append (.single t))

variable {localZone : Location} {parse : String → Option Cronexpr} {p : SchedulingPolicy}

theorem getNextTimeOfDaySnapshot_soonest (now : Time) :
    Soonest (p.timesOfDay.map (localSnapshotTime localZone now)) (getNextTimeOfDaySnapshot localZone p now) := by
  have folded := @Soonest.foldl [] none rfl (p.timesOfDay.map (localSnapshotTime localZone now))
  rwa [List.nil_append,List.foldl_map] at folded

theorem foldl_filterMap {α : Type} (f : α → Option Time) (l : List α) (next : Option Time) :
    (l.filterMap f).foldl soonest next = l.foldl (fun next e => (f e).elim next (soonest next)) next := by
  induction l generalizing next with
  | nil => rfl
  | cons e l ih =>
    rw [List.filterMap_cons,List.foldl_cons,← ih]
    cases f e with
    | none => rfl
    | some t => rfl

theorem getNextCronSnapshot_soonest (now : Time) :
    Soonest (p.cron.filterMap (cronNext parse now)) (getNextCronSnapshot parse p now) := by
  have folded := @Soonest.foldl [] none rfl (p.cron.filterMap (cronNext parse now))
  rwa [List.nil_append,foldl_filterMap] at folded

theorem upcoming_soonest (previous now : Time) :
    Soonest ((getNextInterval p now previous).toList ++ p.timesOfDay.map (localSnapshotTime localZone now) ++
      p.cron.filterMap (cronNext parse now)) (upcoming localZone parse p previous now) := by
  have interval : Soonest (getNextInterval p now previous).toList (getNextInterval p now previous) := by
    cases getNextInterval p now previous with
    | none => exact rfl
    | some t => exact .single t
  exact (interval.append (getNextTimeOfDaySnapshot_soonest now)).append (getNextCronSnapshot_soonest now)

theorem getNextInterval_late {previous now t : Time} (found : getNextInterval p now previous = some t) : now.unixNano ≤ t.unixNano := by
  unfold getNextInterval at found
  split at found
  next => contradiction
  next =>
    dsimp only at found
    cases Option.some.inj found
    split
    next => exact le_rfl
    next late => simpa [Time.Before] using late

theorem cronNext_late {now t : Time} {e : String} (found : cronNext parse now e = some t) : now.unixNano < t.unixNano := by
  unfold cronNext at found
  split at found
  next => contradiction
  next ce _ =>
    split at found
    next => contradiction
    next there =>
      cases Option.some.inj found
      simpa [Time.After] using ce.later now (by simpa using there)

end Soonest

section Timely
variable (localZone : Location) (parse : String → Option Cronexpr)

/-- As `Parse` accepts it. -/
structure TimeOfDay.Valid (tod : TimeOfDay) : Prop where
  hour : 0 ≤ tod.hour ∧ tod.hour ≤ 23
  minute : 0 ≤ tod.minute ∧ tod.minute ≤ 59

/-- At an instant, in nanoseconds since 1970, the local clock shows the time of day. -/
def Shows (tod : TimeOfDay) (u : Int) : Prop :=
  u % 1000000000 = 0 ∧ (⟨u,localZone⟩ : Time).wallSeconds % 86400 = tod.hour.toInt * 3600 + tod.minute.toInt * 60

/-- A snapshot is wanted at the times of day, and where entries of cron are next after some time. -/
def Wanted (p : SchedulingPolicy) (after : Time) (u : Int) : Prop :=
  (∃ tod ∈ p.timesOfDay, Shows localZone tod u) ∨ ∃ e ∈ p.cron, ∃ t, cronNext parse (after.Local localZone) e = some t ∧ t.unixNano = u

def MissedRun (p : SchedulingPolicy) (previous now : Time) : Prop :=
  p.runMissed = some true ∧ ∃ u, previous.unixNano < u ∧ u < now.unixNano ∧ Wanted localZone parse p (previous.Add Second) u

structure Timely (p : SchedulingPolicy) (previous now : Time) : Prop where
  notBefore : ∀ t, NextSnapshotTime localZone parse p previous now = some t → t.Before now = false
  earliest : ∀ t, NextSnapshotTime localZone parse p previous now = some t → p.intervalSeconds = 0 →
    ¬MissedRun localZone parse p previous now → IsLeast {u | now.unixNano ≤ u ∧ Wanted localZone parse p now u} t.unixNano

/-- The first instant from now on at which the clock shows the time of day. -/
def FirstShown (now : Time) (tod : TimeOfDay) (t : Time) : Prop := IsLeast {u | now.unixNano ≤ u ∧ Shows localZone tod u} t.unixNano

/-- If the time of day is still ahead on today's date it is neither skipped nor repeated, and if it has passed the clock shows it
again 24 hours later. -/
structure Undisturbed (now : Time) (tod : TimeOfDay) : Prop where
  ahead : now.After (tod.place localZone now) = false → FirstShown localZone now tod (tod.place localZone now)
  passed : now.After (tod.place localZone now) = true → FirstShown localZone now tod ((tod.place localZone now).Add oneDay)

/-- The clock shows the time of day after the previous snapshot, or up to half an hour from now. -/
def ShownLately (previous now : Time) (tod : TimeOfDay) : Prop :=
  ∃ u, Shows localZone tod u ∧ (previous.unixNano < u ∧ u < now.unixNano ∨ now.unixNano ≤ u ∧ u ≤ now.unixNano + 1800 * 1000000000)

/-- If the time of day has its place between the previous snapshot and now, the clock shows it then. -/
structure Remembered (previous now : Time) (tod : TimeOfDay) : Prop where
  ahead : (previous.Add Second).After (tod.place localZone (previous.Add Second)) = false →
    (tod.place localZone (previous.Add Second)).Before now = true → ShownLately localZone previous now tod
  passed : (previous.Add Second).After (tod.place localZone (previous.Add Second)) = true →
    ((tod.place localZone (previous.Add Second)).Add oneDay).Before now = true → ShownLately localZone previous now tod

variable {localZone parse}

theorem localSnapshotTime_cases (now : Time) (tod : TimeOfDay) :
    now.After (tod.place localZone now) = true ∧
        localSnapshotTime localZone (now.Local localZone) tod = (tod.place localZone now).Add oneDay ∨
      now.After (tod.place localZone now) = false ∧ localSnapshotTime localZone (now.Local localZone) tod = tod.place localZone now := by
  cases passed : now.After (tod.place localZone now) with
  | true => exact .inl ⟨rfl,if_pos passed⟩
  | false => exact .inr ⟨rfl,if_neg (passed ▸ Bool.false_ne_true)⟩

theorem Undisturbed_iff {now : Time} {tod : TimeOfDay} :
    Undisturbed localZone now tod ↔ FirstShown localZone now tod (localSnapshotTime localZone (now.Local localZone) tod) := by
  rcases localSnapshotTime_cases now tod with ⟨passed,same⟩ | ⟨ahead,same⟩
  · rw [same]
    exact ⟨fun calm => calm.passed passed,fun shown => ⟨fun ahead => by rw [passed] at ahead; contradiction,fun _ => shown⟩⟩
  · rw [same]
    exact ⟨fun calm => calm.ahead ahead,fun shown => ⟨fun _ => shown,fun passed => by rw [passed] at ahead; contradiction⟩⟩

theorem Remembered_iff {previous now : Time} {tod : TimeOfDay} :
    Remembered localZone previous now tod ↔
      ((localSnapshotTime localZone ((previous.Local localZone).Add Second) tod).Before now = true → ShownLately localZone previous now tod) := by
  rw [show (previous.Local localZone).Add Second = (previous.Add Second).Local localZone from rfl]
  rcases localSnapshotTime_cases (previous.Add Second) tod with ⟨passed,same⟩ | ⟨ahead,same⟩
  · rw [same]
    exact ⟨fun known => known.passed passed,fun shown => ⟨fun ahead => by rw [passed] at ahead; contradiction,fun _ => shown⟩⟩
  · rw [same]
    exact ⟨fun known => known.ahead ahead,fun shown => ⟨fun _ => shown,fun passed => by rw [passed] at ahead; contradiction⟩⟩

/-- What is upcoming is taken, unless a missed run is made up for. -/
theorem NextSnapshotTime_some {p : SchedulingPolicy} {previous now t : Time}
    (found : NextSnapshotTime localZone parse p previous now = some t) :
    ∃ next, upcoming localZone parse p (previous.Local localZone) (now.Local localZone) = some next ∧
      (checkMissedSnapshot localZone parse p (now.Local localZone) (previous.Local localZone) next = false ∧ t = next ∨
        checkMissedSnapshot localZone parse p (now.Local localZone) (previous.Local localZone) next = true ∧ t = now.Local localZone) := by
  unfold NextSnapshotTime at found
  split at found
  next => contradiction
  next =>
    dsimp only at found
    split at found
    next => contradiction
    next next known =>
      refine ⟨next,known,?_⟩
      split at found
      next missed => exact .inr ⟨missed,(Option.some.inj found).symm⟩
      next kept => exact .inl ⟨by simpa using kept,(Option.some.inj found).symm⟩

/-- A run is made up for if one of the candidates after the previous snapshot is before now, and the upcoming time is far. -/
theorem checkMissedSnapshot_iff {p : SchedulingPolicy} {now previous next : Time} :
    checkMissedSnapshot localZone parse p now previous next = true ↔
      p.runMissed = some true ∧
      (p.timesOfDay ≠ [] ∨ p.cron.filterMap (cronNext parse (previous.Add Second)) ≠ []) ∧
      (∃ u ∈ [next] ++ p.timesOfDay.map (localSnapshotTime localZone (previous.Add Second)) ++
        p.cron.filterMap (cronNext parse (previous.Add Second)), u.unixNano < now.unixNano) ∧
      now.unixNano + 1800 * 1000000000 < next.unixNano := by
  have tods := @getNextTimeOfDaySnapshot_soonest localZone p (previous.Add Second)
  have crons := @getNextCronSnapshot_soonest parse p (previous.Add Second)
  have all := ((Soonest.single next).elim_earlier tods).elim_earlier crons
  have far : next.After (now.Add (30 * Minute)) = true ↔ now.unixNano + 1800 * 1000000000 < next.unixNano := decide_eq_true_iff
  have some : p.timesOfDay ≠ [] ∨ p.cron.filterMap (cronNext parse (previous.Add Second)) ≠ [] ↔
      ((getNextTimeOfDaySnapshot localZone p (previous.Add Second)).isNone &&
        (getNextCronSnapshot parse p (previous.Add Second)).isNone) = false := by
    rw [← Bool.not_eq_true,Bool.and_eq_true,tods.isNone,crons.isNone,List.map_eq_nil_iff]
    tauto
  rw [← all.before now,← far,some]
  unfold checkMissedSnapshot
  dsimp only
  cases run : p.runMissed with
  | none => simp
  | some b =>
    cases b with
    | false => simp
    | true =>
      rw [if_neg (by simp)]
      split
      next none => simp [none]
      next any =>
        rw [Bool.and_eq_true]
        simp only [Bool.not_eq_true] at any
        simp [any]

/-- What a candidate of the times of day is taken for, when none is disturbed. -/
theorem upcoming_earliest {p : SchedulingPolicy} {previous now next : Time}
    (found : upcoming localZone parse p (previous.Local localZone) (now.Local localZone) = some next)
    (calm : ∀ tod ∈ p.timesOfDay, FirstShown localZone now tod (localSnapshotTime localZone (now.Local localZone) tod)) :
    now.unixNano ≤ next.unixNano ∧
      (∀ u, now.unixNano ≤ u → Wanted localZone parse p now u → next.unixNano ≤ u) ∧
      (p.intervalSeconds = 0 → Wanted localZone parse p now next.unixNano) := by
  have soonest := @upcoming_soonest localZone parse p (previous.Local localZone) (now.Local localZone)
  rw [found] at soonest
  obtain ⟨member,least⟩ := soonest
  have candidate : now.unixNano ≤ next.unixNano ∧ (p.intervalSeconds = 0 → Wanted localZone parse p now next.unixNano) := by
    rcases List.mem_append.mp member with earlier | cron
    · rcases List.mem_append.mp earlier with interval | time
      · have late := getNextInterval_late (Option.mem_toList.mp interval)
        refine ⟨late,fun none => ?_⟩
        rw [getNextInterval,if_pos none] at interval
        contradiction
      · obtain ⟨tod,inside,rfl⟩ := List.mem_map.mp time
        obtain ⟨⟨late,shown⟩,-⟩ := calm tod inside
        exact ⟨late,fun _ => .inl ⟨tod,inside,shown⟩⟩
    · obtain ⟨e,inside,known⟩ := List.mem_filterMap.mp cron
      exact ⟨(cronNext_late known).le,fun _ => .inr ⟨e,inside,next,known,rfl⟩⟩
  refine ⟨candidate.1,fun u late wanted => ?_,candidate.2⟩
  rcases wanted with ⟨tod,inside,shown⟩ | ⟨e,inside,t,known,rfl⟩
  · exact (least _ (by simp only [List.mem_append,List.mem_map]; exact .inl (.inr ⟨tod,inside,rfl⟩))).trans
      ((calm tod inside).2 ⟨late,shown⟩)
  · exact least t (by simp only [List.mem_append,List.mem_filterMap]; exact .inr ⟨e,inside,known⟩)

/-- If no time of day is disturbed, all that a policy is to give is given. -/
theorem Timely_of_undisturbed {p : SchedulingPolicy} {previous now : Time}
    (calm : ∀ tod ∈ p.timesOfDay, Undisturbed localZone now tod ∧ Remembered localZone previous now tod) :
    Timely localZone parse p previous now := by
  have first := fun tod inside => Undisturbed_iff.mp (calm tod inside).1
  refine ⟨fun t found => ?_,fun t found single kept => ?_⟩
  · obtain ⟨next,known,⟨-,rfl⟩ | ⟨-,rfl⟩⟩ := NextSnapshotTime_some found
    · simpa [Time.Before] using (upcoming_earliest known first).1
    · simp [Time.Before,Time.Local]
  · obtain ⟨next,known,⟨-,rfl⟩ | ⟨missed,rfl⟩⟩ := NextSnapshotTime_some found
    · obtain ⟨late,least,wanted⟩ := upcoming_earliest known first
      exact ⟨⟨late,wanted single⟩,fun u ⟨late,wanted⟩ => least u late wanted⟩
    · obtain ⟨run,-,⟨u,candidate,early⟩,far⟩ := checkMissedSnapshot_iff.mp missed
      obtain ⟨late,least,-⟩ := upcoming_earliest known first
      refine absurd ⟨run,?_⟩ kept
      rcases List.mem_append.mp candidate with earlier | cron
      · rcases List.mem_append.mp earlier with same | time
        · cases List.mem_singleton.mp same
          exact absurd (late.trans_lt early) (lt_irrefl _)
        · obtain ⟨tod,inside,rfl⟩ := List.mem_map.mp time
          obtain ⟨v,shown,between | soon⟩ := Remembered_iff.mp (calm tod inside).2 (decide_eq_true early)
          · exact ⟨v,between.1,between.2,.inl ⟨tod,inside,shown⟩⟩
          · have before := least v soon.1 (.inl ⟨tod,inside,shown⟩)
            exact absurd ((soon.2.trans_lt far).trans_le before) (lt_irrefl _)
      · obtain ⟨e,inside,known⟩ := List.mem_filterMap.mp cron
        have after : previous.unixNano + 1000000000 < u.unixNano := cronNext_late known
        exact ⟨u.unixNano,by omega,early,.inr ⟨e,inside,u,known,rfl⟩⟩

/-- A policy with a single time of day. -/
def daily (tod : TimeOfDay) (runMissed : OptionalBool) : SchedulingPolicy := ⟨0,[tod],false,false,[],runMissed⟩

theorem upcoming_daily (tod : TimeOfDay) (runMissed : OptionalBool) (previous now : Time) :
    upcoming localZone parse (daily tod runMissed) previous now = some (localSnapshotTime localZone now tod) := rfl

theorem Wanted_daily {tod : TimeOfDay} {runMissed : OptionalBool} {after : Time} {u : Int} :
    Wanted localZone parse (daily tod runMissed) after u ↔ Shows localZone tod u := by
  simp [Wanted,daily]

theorem undisturbed_of_daily {tod : TimeOfDay} {previous now : Time} (timely : Timely localZone parse (daily tod none) previous now) :
    Undisturbed localZone now tod := by
  have found : NextSnapshotTime localZone parse (daily tod none) previous now =
      some (localSnapshotTime localZone (now.Local localZone) tod) := rfl
  have least := timely.earliest _ found rfl fun missed => by simpa [daily] using missed.1
  simp only [Wanted_daily] at least
  exact Undisturbed_iff.mpr least

theorem remembered_of_daily {tod : TimeOfDay} {previous now : Time} (calm : Undisturbed localZone now tod)
    (timely : Timely localZone parse (daily tod (some true)) previous now) : Remembered localZone previous now tod := by
  refine Remembered_iff.mpr fun early => ?_
  by_contra hidden
  have first := Undisturbed_iff.mp calm
  have far : now.unixNano + 1800 * 1000000000 < (localSnapshotTime localZone (now.Local localZone) tod).unixNano := by
    by_contra soon
    exact hidden ⟨_,first.1.2,.inr ⟨first.1.1,not_lt.mp soon⟩⟩
  have missed : checkMissedSnapshot localZone parse (daily tod (some true)) (now.Local localZone) (previous.Local localZone)
      (localSnapshotTime localZone (now.Local localZone) tod) = true := by
    refine checkMissedSnapshot_iff.mpr ⟨rfl,.inl (List.cons_ne_nil _ _),⟨_,?_,of_decide_eq_true early⟩,far⟩
    simp [daily]
  have found : NextSnapshotTime localZone parse (daily tod (some true)) previous now = some (now.Local localZone) := by
    rw [NextSnapshotTime,if_neg (by simp [daily])]
    dsimp only
    rw [upcoming_daily]
    dsimp only
    rw [if_pos missed]
  have least := timely.earliest _ found rfl fun ⟨_,u,after,before,wanted⟩ => hidden ⟨u,Wanted_daily.mp wanted,.inl ⟨after,before⟩⟩
  exact hidden ⟨now.unixNano,Wanted_daily.mp least.1.2,.inr ⟨le_rfl,by omega⟩⟩

/-- All policies with some times of day get timely snapshots exactly if the clock disturbs none of the times. -/
theorem NextSnapshotTime_timely_iff (localZone : Location) (parse : String → Option Cronexpr) (previous now : Time) (times : List TimeOfDay) :
    (∀ p : SchedulingPolicy, p.manual = false → 0 ≤ p.intervalSeconds → (∀ tod ∈ p.timesOfDay, tod.Valid ∧ tod ∈ times) →
      Timely localZone parse p previous now) ↔
      ∀ tod ∈ times, tod.Valid → Undisturbed localZone now tod ∧ Remembered localZone previous now tod := by
  refine ⟨fun timely tod member valid => ?_,fun calm p _ _ inside => ?_⟩
  · have single (runMissed : OptionalBool) : Timely localZone parse (daily tod runMissed) previous now :=
      timely _ rfl (show (0 : Int64) ≤ 0 by decide) fun t here => by
        cases List.mem_singleton.mp here
        exact ⟨valid,member⟩
    have undisturbed := undisturbed_of_daily (single none)
    exact ⟨undisturbed,remembered_of_daily undisturbed (single (some true))⟩
  · exact Timely_of_undisturbed fun tod here => calm tod (inside tod here).2 (inside tod here).1

/-- On 27 October the clock is set back by an hour. -/
def autumn : Location where
  lookup sec := if sec < 1729990800 then ⟨7200,1711846800,1729990800⟩ else ⟨3600,1729990800,1743296400⟩
  bounded sec := by
    split
    next => decide
    next => decide

/-- At a quarter to midnight of that day, half past midnight is taken to be at half past eleven. -/
theorem NextSnapshotTime_before_now : ¬∀ localZone parse p previous now, p.manual = false → 0 ≤ p.intervalSeconds →
    (∀ tod ∈ p.timesOfDay, tod.Valid) → previous.After now = false → Timely localZone parse p previous now := by
  intro timely
  have valid : TimeOfDay.Valid ⟨0,30⟩ := ⟨by decide,by decide⟩
  have now := timely autumn (fun _ => none) (daily ⟨0,30⟩ none) ⟨1729981800 * 1000000000,autumn⟩ ⟨1730069100 * 1000000000,autumn⟩ rfl
    (show (0 : Int64) ≤ 0 by decide) (fun tod here => List.mem_singleton.mp here ▸ valid) (by decide)
  have late := now.notBefore _ rfl
  have early : (localSnapshotTime autumn ⟨1730069100 * 1000000000,autumn⟩ ⟨0,30⟩).Before ⟨1730069100 * 1000000000,autumn⟩ = true := by decide
  exact absurd (early.symm.trans late) (by decide)

end Timely

section Steady
variable {localZone : Location}

theorem TimeOfDay.Valid.seconds {tod : TimeOfDay} (valid : tod.Valid) :
    0 ≤ tod.hour.toInt * 3600 + tod.minute.toInt * 60 ∧ tod.hour.toInt * 3600 + tod.minute.toInt * 60 < 86400 := by
  obtain ⟨⟨h,hour⟩,m,minute⟩ := valid
  rw [Int64.le_iff_toInt_le] at h hour m minute
  have zero : (0 : Int64).toInt = 0 := by decide
  have last : (23 : Int64).toInt = 23 := by decide
  have latest : (59 : Int64).toInt = 59 := by decide
  omega

/-- Where the offset is the same for a day around, the place of a time of day is where it should be. -/
theorem place_steady {now : Time} {tod : TimeOfDay} (valid : tod.Valid) {offset : Int}
    (steady : ∀ sec, now.unixNano / 1000000000 - (172800 + |offset|) ≤ sec → sec ≤ now.unixNano / 1000000000 + (172800 + |offset|) →
      (localZone.lookup sec).offset = offset) :
    (tod.place localZone now).unixNano = ((now.unixNano / 1000000000 + offset) / 86400 * 86400 +
      (tod.hour.toInt * 3600 + tod.minute.toInt * 60) - offset) * 1000000000 := by
  obtain ⟨positive,small⟩ := valid.seconds
  have above := le_abs_self offset
  have below := neg_abs_le offset
  have today : (now.Local localZone).day = (now.unixNano / 1000000000 + offset) / 86400 := by
    have same := steady (now.unixNano / 1000000000) (by omega) (by omega)
    rw [Time.day,Time.wallSeconds,Time.Local]
    dsimp only
    rw [same]
  unfold TimeOfDay.place TimeOfDay.on Time.Date Time.ofWallSeconds
  rw [today,Vbe.Policy.daysSinceEpoch_absDate]
  dsimp only
  rw [steady _ (by omega) (by omega)]
  split
  next => omega
  next =>
    split
    next =>
      rw [steady _ (by omega) (by omega)]
      omega
    next => omega

/-- If the clock is not changed within two days, no time of day is disturbed. -/
theorem undisturbed_of_steady {now : Time} {tod : TimeOfDay} (valid : tod.Valid) {offset : Int}
    (steady : ∀ sec : Int, |sec - now.unixNano / 1000000000| ≤ 172800 + |offset| → (localZone.lookup sec).offset = offset) :
    Undisturbed localZone now tod := by
  have near (sec : Int) (after : now.unixNano / 1000000000 - (172800 + |offset|) ≤ sec)
      (before : sec ≤ now.unixNano / 1000000000 + (172800 + |offset|)) : (localZone.lookup sec).offset = offset :=
    steady sec (abs_le.mpr ⟨by omega,by omega⟩)
  have place := place_steady valid near
  obtain ⟨positive,small⟩ := valid.seconds
  obtain ⟨T,time⟩ : ∃ T, T = tod.hour.toInt * 3600 + tod.minute.toInt * 60 := ⟨_,rfl⟩
  rw [← time] at positive small place
  obtain ⟨D,day⟩ : ∃ D, D = (now.unixNano / 1000000000 + offset) / 86400 := ⟨_,rfl⟩
  rw [← day] at place
  have magnitude := abs_nonneg offset
  have first (k : Int) (few : 0 ≤ k ∧ k ≤ 1) (t : Time) (at' : t.unixNano = (D * 86400 + T - offset + k * 86400) * 1000000000)
      (late : now.unixNano ≤ t.unixNano)
      (once : ∀ s : Int, now.unixNano ≤ s * 1000000000 → s + offset < D * 86400 + T + k * 86400 → (s + offset) % 86400 ≠ T) :
      FirstShown localZone now tod t := by
    have shown : Shows localZone tod t.unixNano := by
      refine ⟨by omega,?_⟩
      rw [Time.wallSeconds,← time]
      dsimp only
      rw [near _ (by omega) (by omega)]
      omega
    refine ⟨⟨late,shown⟩,fun u later => ?_⟩
    obtain ⟨after,whole,wall⟩ := later
    by_contra before
    rw [Time.wallSeconds,← time] at wall
    dsimp only at wall
    rw [near _ (by omega) (by omega)] at wall
    exact once (u / 1000000000) (by omega) (by omega) wall
  refine ⟨fun ahead => ?_,fun passed => ?_⟩
  · have order : now.unixNano ≤ (tod.place localZone now).unixNano := by simpa [Time.After] using ahead
    exact first 0 (by omega) _ (by omega) order fun s after before => by omega
  · have order : (tod.place localZone now).unixNano < now.unixNano := of_decide_eq_true passed
    have moved : ((tod.place localZone now).Add oneDay).unixNano = (tod.place localZone now).unixNano + 86400 * 1000000000 := rfl
    exact first 1 (by omega) _ (by omega) (by omega) fun s after before => by omega

theorem remembered_of_undisturbed {previous now : Time} {tod : TimeOfDay} (calm : Undisturbed localZone (previous.Add Second) tod) :
    Remembered localZone previous now tod := by
  refine Remembered_iff.mpr fun early => ?_
  obtain ⟨⟨late,shown⟩,-⟩ := Undisturbed_iff.mp calm
  have after : previous.unixNano + 1000000000 ≤ (localSnapshotTime localZone ((previous.Add Second).Local localZone) tod).unixNano := late
  exact ⟨_,shown,.inl ⟨by omega,of_decide_eq_true early⟩⟩

end Steady

end Vbe.Policies
