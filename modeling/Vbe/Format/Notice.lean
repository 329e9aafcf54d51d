import Vbe.Format.Rollback

/-! The notice that an upgrade lock gives, and how updates change it. -/
namespace Vbe.Format
open Vbe.Index (Bytes)
open Vbe.Library

namespace UpgradeLockIntent

/-- Whether there is a lock, and whether writers have drained. `none` is a panic. -/
def IsLocked (l : Option UpgradeLockIntent) (now : Time) : Option (Bool × Bool) :=
  match l with
  | none => some (false,false)
  | some l =>
    let locked := l.AdvanceNoticeDuration < l.totalDrainInterval ||
      !(now < l.CreationTime + (l.AdvanceNoticeDuration - l.totalDrainInterval))
    let writersDrained := !(now < l.UpgradeTime)
    if writersDrained && !locked then none else some (locked,writersDrained)

/-- Drained writers are locked out, and what is locked or drained stays so. -/
def Steady (l : Option UpgradeLockIntent) : Prop :=
  ∀ now, ∃ locked writersDrained, IsLocked l now = some (locked,writersDrained) ∧ (writersDrained → locked) ∧
    ∀ later, now ≤ later → ∀ locked' writersDrained', IsLocked l later = some (locked',writersDrained') →
      (locked → locked') ∧ (writersDrained → writersDrained')

section Drains
variable {l other newL : UpgradeLockIntent}

structure Valid (l : UpgradeLockIntent) : Prop where
  drains : 0 < l.totalDrainInterval
  noticed : l.AdvanceNoticeDuration = 0 ∨ l.totalDrainInterval < l.AdvanceNoticeDuration

theorem valid_of_Validate (valid : l.Validate) : l.Valid := by
  unfold Validate at valid
  simp only [Bool.and_eq_true,Bool.or_eq_true,Bool.not_eq_true',decide_eq_true_eq,decide_eq_false_iff_not] at valid
  obtain ⟨⟨⟨⟨⟨⟨_,_⟩,timeout⟩,_⟩,_⟩,drift⟩,notice⟩ := valid
  constructor
  · have positive (drift timeout : Int) (first : 0 < drift) (second : 0 < timeout) : 0 < drift + 2 * timeout := by omega
    exact positive _ _ (not_le.mp drift) (not_le.mp timeout)
  · exact notice.imp_right fun both => not_le.mp both.2

theorem UpgradeTime_eq (l : UpgradeLockIntent) :
    l.UpgradeTime = l.CreationTime + max l.AdvanceNoticeDuration l.totalDrainInterval := by
  unfold UpgradeTime
  split
  next more => rw [max_eq_left (le_of_lt more)]
  next less => rw [max_eq_right (not_lt.mp less)]

theorem IsLocked_eq (drains : 0 < l.totalDrainInterval) (now : Time) : IsLocked (some l) now =
    some (decide (l.AdvanceNoticeDuration < l.totalDrainInterval ∨ l.CreationTime + (l.AdvanceNoticeDuration - l.totalDrainInterval) ≤ now),
      decide (l.UpgradeTime ≤ now)) := by
  have locked : (!decide (now < l.UpgradeTime) && !(decide (l.AdvanceNoticeDuration < l.totalDrainInterval) ||
      !decide (now < l.CreationTime + (l.AdvanceNoticeDuration - l.totalDrainInterval)))) = false := by
    rw [UpgradeTime_eq]
    grind
  unfold IsLocked
  simp only [locked]
  refine congrArg some (Prod.ext ?_ ?_)
  · rw [Bool.eq_iff_iff]
    simp [not_lt]
  · rw [Bool.eq_iff_iff]
    simp [not_lt]

theorem steady_none : Steady none := fun _ => ⟨false,false,rfl,id,fun _ _ _ _ same => by cases same; exact ⟨id,id⟩⟩

theorem steady_of_drains (drains : 0 < l.totalDrainInterval) : Steady (some l) := by
  intro now
  refine ⟨_,_,IsLocked_eq drains now,?_,?_⟩
  · rw [UpgradeTime_eq,decide_eq_true_eq,decide_eq_true_eq]
    grind
  · intro later after locked' writersDrained' same
    rw [IsLocked_eq drains] at same
    cases same
    simp only [decide_eq_true_eq]
    exact ⟨fun locked => locked.imp_right fun early => early.trans after,fun drained => drained.trans after⟩

/-- What an update changes is the notice. -/
theorem Update_eq (updated : l.Update other = some newL) :
    newL = { l with AdvanceNoticeDuration := other.AdvanceNoticeDuration } ∧
      ((l.AdvanceNoticeDuration = 0 ∧ other.AdvanceNoticeDuration = 0) ∨
        l.AdvanceNoticeDuration ≠ 0 ∧ other.AdvanceNoticeDuration ≠ 0 ∧ l.UpgradeTime ≤ other.UpgradeTime) := by
  unfold Update at updated
  split at updated
  next => exact nomatch updated
  next =>
    split at updated
    next none =>
      split at updated
      next => exact nomatch updated
      next same => exact ⟨(Option.some.inj updated).symm,.inl ⟨none,not_not.mp same⟩⟩
    next some =>
      split at updated
      next => exact nomatch updated
      next some' =>
        split at updated
        next => exact nomatch updated
        next extends' => exact ⟨(Option.some.inj updated).symm,.inr ⟨some,some',not_lt.mp extends'⟩⟩

theorem Update_drains (updated : l.Update other = some newL) : newL.totalDrainInterval = l.totalDrainInterval := by
  rw [(Update_eq updated).1]
  rfl

end Drains

end UpgradeLockIntent

section Calls
variable {Key : Type} {sw : Software Key} {m : Manager Key} {st : Storage}

/-- A lock of a manager, after any number of calls of managers that each knew of the lock before. -/
inductive Reached (sw : Software Key) : Option UpgradeLockIntent → Prop
  | unlocked : Reached sw none
  | call {m m' : Manager Key} {st st' : Storage} {result : Except (Manager Key) (Manager Key)} (l : UpgradeLockIntent) (nonce : Bytes)
      (endings : List Ending) (known : Reached sw m.repoConfig.UpgradeLock)
      (ran : (m.SetUpgradeLockIntent sw l nonce).steps Storage.perform endings st = (st',some result))
      (after : result = .ok m' ∨ result = .error m') : Reached sw m'.repoConfig.UpgradeLock

/-- The lock of the manager that a call leaves, if it ends. -/
def LeavesLock (held : Option UpgradeLockIntent → Prop) (_ : Storage) (result : Option (Except (Manager Key) (Manager Key))) : Prop :=
  ∀ m', result = some (.ok m') ∨ result = some (.error m') → held m'.repoConfig.UpgradeLock

theorem leavesLock_none {held : Option UpgradeLockIntent → Prop} : @LeavesLock Key held st none :=
  fun _ => Or.rec nofun nofun

theorem leavesLock_error {held : Option UpgradeLockIntent → Prop} (holds : held m.repoConfig.UpgradeLock) :
    LeavesLock held st (some (.error m)) := by
  rintro m' (same | same)
  · cases same
  · cases same
    exact holds

theorem leavesLock_ok {held : Option UpgradeLockIntent → Prop} (holds : held m.repoConfig.UpgradeLock) :
    LeavesLock held st (some (.ok m)) := by
  rintro m' (same | same)
  · cases same
    exact holds
  · cases same

theorem leads_update_lock {held : Option UpgradeLockIntent → Prop} (holds : held m.repoConfig.UpgradeLock) (nonce : Bytes) :
    Leads (updateRepoConfigLocked sw m nonce) (LeavesLock held) st := by
  unfold updateRepoConfigLocked
  split
  next => exact leavesLock_error holds
  next j _ =>
    refine Query.Pre.bind (leads_put leavesLock_none ?_ (fun time => ?_) fun time => ?_)
    · exact leavesLock_error (m := { m with j := j }) holds
    · exact leavesLock_error (m := { m with j := j }) holds
    · exact leavesLock_ok (m := { m with j := j }) holds

/-- A lock stays, is placed where there was none, or is updated. -/
theorem leads_set_lock (l : UpgradeLockIntent) (nonce : Bytes) : Leads (m.SetUpgradeLockIntent sw l nonce)
    (LeavesLock fun lock => lock = m.repoConfig.UpgradeLock ∨ l.Validate ∧
      (lock = some l ∨ ∃ before after, m.repoConfig.UpgradeLock = some before ∧ before.Update l = some after ∧ lock = some after)) st := by
  unfold Manager.SetUpgradeLockIntent
  split
  next => exact leavesLock_error (.inl rfl)
  next invalid =>
    have valid : l.Validate := by simpa using invalid
    split
    next free =>
      split
      next => exact leavesLock_error (.inl rfl)
      next =>
        refine Query.Pre.bind (leads_put leavesLock_none ?_ (fun time => ?_) fun time => ?_)
        · exact leavesLock_error (.inl rfl)
        · exact leavesLock_error (.inl rfl)
        · exact leads_update_lock (.inr ⟨valid,.inl rfl⟩) nonce
    next lock held =>
      split
      next => exact leavesLock_error (.inl rfl)
      next newL updated => exact leads_update_lock (.inr ⟨valid,.inr ⟨lock,newL,held,updated,rfl⟩⟩) nonce

theorem Reached.drains {lock : Option UpgradeLockIntent} (reached : Reached sw lock) :
    ∀ l, lock = some l → 0 < l.totalDrainInterval := by
  induction reached with
  | unlocked => exact nofun
  | @call m m' st st' result l nonce endings known ran after ih =>
    intro lock held
    have leads : Leads (m.SetUpgradeLockIntent sw l nonce) _ st := leads_set_lock l nonce
    have leaves := leads.steps (Query.along_true _ endings st)
    rw [ran] at leaves
    rcases leaves m' (after.imp (congrArg some) (congrArg some)) with same | ⟨valid,placed | ⟨before,newL,held',updated,same⟩⟩
    · exact ih lock (same.symm.trans held)
    · cases placed.symm.trans held
      exact (UpgradeLockIntent.valid_of_Validate valid).drains
    · cases same.symm.trans held
      rw [UpgradeLockIntent.Update_drains updated]
      exact ih before held'

theorem Reached.steady {lock : Option UpgradeLockIntent} (reached : Reached sw lock) : UpgradeLockIntent.Steady lock := by
  cases lock with
  | none => exact UpgradeLockIntent.steady_none
  | some l => exact UpgradeLockIntent.steady_of_drains (reached.drains l rfl)

end Calls

namespace UpgradeLockIntent
variable {l other newL : UpgradeLockIntent}

/-- The new lock is valid and its upgrade time no earlier. -/
def Extends (l newL : UpgradeLockIntent) : Prop := newL.Validate ∧ l.UpgradeTime ≤ newL.UpgradeTime

theorem Validate_notice (valid : l.Validate) {d : Duration} (more : l.totalDrainInterval < d) :
    { l with AdvanceNoticeDuration := d }.Validate := by
  have drains := (valid_of_Validate valid).drains
  have positive : ¬ d < 0 := not_lt.mpr (le_of_lt (drains.trans more))
  have more' : ¬ d ≤ { l with AdvanceNoticeDuration := d }.totalDrainInterval := not_le.mpr more
  unfold Validate at valid ⊢
  simp only [Bool.and_eq_true] at valid ⊢
  exact ⟨valid.1,by simp [positive,more']⟩

/-- The upgrade time that is compared is that of the new intent, whose creation time is then not taken over. -/
theorem extends_iff (valid : l.Validate) (updated : l.Update other = some newL) :
    Extends l newL ↔ l.AdvanceNoticeDuration ≤ other.AdvanceNoticeDuration := by
  obtain ⟨rfl,⟨none,none'⟩ | ⟨some,some',_⟩⟩ := Update_eq updated
  · have same : { l with AdvanceNoticeDuration := other.AdvanceNoticeDuration } = l := by
      rw [none',← none]
    rw [same]
    exact iff_of_true ⟨valid,le_rfl⟩ (by rw [none,none'])
  · have noticed := (valid_of_Validate valid).noticed.resolve_left some
    rw [Extends,UpgradeTime_eq,UpgradeTime_eq,max_eq_left (le_of_lt noticed)]
    constructor
    · rintro ⟨_,later⟩
      rcases le_max_iff.mp ((add_le_add_iff_left _).mp later) with more | less
      · exact more
      · exact absurd less (not_le.mpr noticed)
    · intro more
      refine ⟨Validate_notice valid (noticed.trans_le more),?_⟩
      exact (add_le_add_iff_left l.CreationTime).mpr (le_max_of_le_left more)

end UpgradeLockIntent

/-- An update extends a lock just if the notice does not get shorter. Locks that can be reached are steady in any case. -/
theorem Update_extends_iff {Key : Type} (sw : Software Key) {l other newL : UpgradeLockIntent} (valid : l.Validate)
    (updated : l.Update other = some newL) :
    (l.Extends newL ↔ l.AdvanceNoticeDuration ≤ other.AdvanceNoticeDuration) ∧
      ∀ lock, Reached sw lock → UpgradeLockIntent.Steady lock :=
  ⟨UpgradeLockIntent.extends_iff valid updated,fun _ reached => reached.steady⟩

section Examples

/-- A lock with some minutes of notice, placed some minutes after the beginning. -/
def noticed (created notice : Int) : UpgradeLockIntent :=
  ⟨"owner",created * Minute,notice * Minute,10 * Minute,Minute,"upgrading",5 * Minute⟩

theorem Update_extends_iff_longer : ((noticed 0 60).Extends (noticed 0 70) ↔ 60 * Minute ≤ 70 * Minute) ∧
    ∀ lock, Reached twoKeys lock → UpgradeLockIntent.Steady lock := by
  have updated : (noticed 0 60).Update (noticed 50 70) = some (noticed 0 70) := by decide +kernel
  exact Update_extends_iff twoKeys (by decide +kernel) updated

/-- An update fifty minutes later with thirty minutes of notice makes the upgrade time half an hour earlier. -/
theorem Update_shortens : ¬ ∀ l other newL : UpgradeLockIntent, l.Validate → other.Validate → l.Update other = some newL →
    l.Extends newL := by
  intro claim
  have updated : (noticed 0 60).Update (noticed 50 30) = some (noticed 0 30) := by decide +kernel
  have extended := claim (noticed 0 60) (noticed 50 30) _ (by decide +kernel) (by decide +kernel) updated
  have earlier : ¬ (noticed 0 60).UpgradeTime ≤ (noticed 0 30).UpgradeTime := by decide +kernel
  exact earlier extended.2

end Examples

end Vbe.Format
