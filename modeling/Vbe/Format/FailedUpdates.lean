import Vbe.Format.Notice

/-! What a manager remembers of an update of which nothing could be stored. -/
namespace Vbe.Format
open Vbe.Index (Bytes)
open Vbe.Library

section FailedUpdates
variable {Key : Type} {sw : Software Key} {m m' : Manager Key} {st : Storage}

/-- A call to the storage fails and stores nothing. -/
def Nothing (st : Storage) (op : Op) (e : Option Ending) : Prop := ∃ e', e = some e' ∧ st.perform op e' = (st,.failed)

/-- What a manager reports is the same, and so is what it would write, at most encrypted anew. -/
structure SameView (sw : Software Key) (m m' : Manager Key) : Prop where
  repoConfig : m'.repoConfig = m.repoConfig
  password : m'.password = m.password
  formatEncryptionKey : m'.formatEncryptionKey = m.formatEncryptionKey
  blobCfgBlob : m'.blobCfgBlob = m.blobCfgBlob
  current : m'.current = m.current
  j : m'.j = m.j ∨ ∃ nonce, m.j.EncryptRepositoryConfig sw m.repoConfig m.formatEncryptionKey nonce = some m'.j

theorem SameView.refl (sw : Software Key) (m : Manager Key) : SameView sw m m := ⟨rfl,rfl,rfl,rfl,rfl,.inl rfl⟩

/-- Nothing is set that was not there before, or the first lock, of which a backup comes first. -/
def NoChange (sw : Software Key) (m : Manager Key) : Operation → Prop
  | .SetUpgradeLockIntent l _ => ∀ lock, m.repoConfig.UpgradeLock = some lock → l.AdvanceNoticeDuration = lock.AdvanceNoticeDuration
  | .CommitUpgrade _ => False
  | .RollbackUpgrade => True
  | .change (.ChangePassword newPassword _ _) => newPassword = m.password ∧
    m.j.DeriveFormatEncryptionKeyFromPassword sw newPassword = some m.formatEncryptionKey
  | .change (.SetParameters mp _ requiredFeatures _ _) =>
    mp = m.repoConfig.ContentFormat.toMutableParameters ∧ requiredFeatures = m.repoConfig.RequiredFeatures

/-- How an operation ends that asks something of the storage, and gets nothing. -/
abbrev Failing {α : Type} (p : Call Key α) (post : Manager Key → Prop) (st : Storage) : Prop :=
  p.Pre Storage.perform Nothing (fun _ result => ∀ m', result = some (.error m') → post m') st

theorem failing_demand {op : Op} {f : Unit → Call Key (Manager Key)} {post : Manager Key → Prop} (holds : post m) :
    Failing (demand m op >>= f) post st := by
  refine Query.Pre.bind ⟨nofun,?_⟩
  rintro e ⟨e',same,failed⟩
  cases same
  rw [failed]
  intro m' same
  cases same
  exact holds

theorem failing_update {post : Manager Key → Prop} (nonce : Bytes) (refused : post m)
    (holds : ∀ j, m.j.EncryptRepositoryConfig sw m.repoConfig m.formatEncryptionKey nonce = some j → post { m with j := j }) :
    Failing (updateRepoConfigLocked sw m nonce) post st := by
  unfold updateRepoConfigLocked
  split
  next =>
    intro m' same
    cases same
    exact refused
  next j encrypted => exact failing_demand (holds j encrypted)

/-- The program asks something of the storage. -/
def Asks {α : Type} (p : Call Key α) : Prop := ∃ op next, p = .ask op next

theorem not_asks_fail {α : Type} : ¬ Asks (.fail m : Call Key α) := by
  rintro ⟨op,next,same⟩
  cases same

theorem failing_set_lock (l : UpgradeLockIntent) (nonce : Bytes) (asks : Asks (m.SetUpgradeLockIntent sw l nonce)) :
    Failing (m.SetUpgradeLockIntent sw l nonce) (fun m' => SameView sw m m' ↔ NoChange sw m (.SetUpgradeLockIntent l nonce)) st := by
  revert asks
  unfold Manager.SetUpgradeLockIntent
  split
  next => exact fun asks => absurd asks not_asks_fail
  next =>
    split
    next free =>
      split
      next => exact fun asks => absurd asks not_asks_fail
      next => exact fun _ => failing_demand (iff_of_true (.refl sw m) fun lock held => nomatch free.symm.trans held)
    next lock held =>
      split
      next => exact fun asks => absurd asks not_asks_fail
      next newL updated =>
        have new := (UpgradeLockIntent.Update_eq updated).1
        unfold updateRepoConfigLocked
        split
        next => exact fun asks => absurd asks not_asks_fail
        next j encrypted =>
          refine fun _ => failing_demand ⟨fun same lock' held' => ?_,fun same => ?_⟩
          · cases held.symm.trans held'
            have lock_eq : some newL = some lock := (congrArg RepositoryConfig.UpgradeLock same.repoConfig).trans held
            have notice := congrArg UpgradeLockIntent.AdvanceNoticeDuration (Option.some.inj lock_eq)
            rw [new] at notice
            exact notice
          · have unchanged : newL = lock := by
              rw [new,same lock held]
            have whole : m.withLock (some newL) = m := by
              rw [unchanged,Manager.withLock,← held]
            rw [whole] at encrypted ⊢
            exact ⟨rfl,rfl,rfl,rfl,rfl,.inr ⟨nonce,encrypted⟩⟩

theorem failing_commit (nonce : Bytes) (asks : Asks (m.CommitUpgrade sw nonce)) :
    Failing (m.CommitUpgrade sw nonce) (fun m' => SameView sw m m' ↔ NoChange sw m (.CommitUpgrade nonce)) st := by
  revert asks
  unfold Manager.CommitUpgrade
  split
  next => exact fun asks => absurd asks not_asks_fail
  next lock held =>
    intro _
    have changed {m' : Manager Key} (none : m'.repoConfig.UpgradeLock = none) : ¬ SameView sw m m' := by
      intro same
      rw [same.repoConfig,held] at none
      exact nomatch none
    refine ⟨nofun,?_⟩
    rintro e ⟨e',same,failed⟩
    cases same
    rw [failed]
    exact failing_update nonce (iff_of_false (changed rfl) id) fun j _ => iff_of_false (changed rfl) id

theorem failing_parameters (mp : MutableParameters) (blobcfg : BlobStorageConfiguration) (requiredFeatures : List Required)
    (nonce nonce' : Bytes) (asks : Asks (m.SetParameters sw mp blobcfg requiredFeatures nonce nonce')) :
    Failing (m.SetParameters sw mp blobcfg requiredFeatures nonce nonce')
      (fun m' => SameView sw m m' ↔ NoChange sw m (.change (.SetParameters mp blobcfg requiredFeatures nonce nonce'))) st := by
  revert asks
  unfold Manager.SetParameters
  split
  next => exact fun asks => absurd asks not_asks_fail
  next =>
    split
    next => exact fun asks => absurd asks not_asks_fail
    next =>
      dsimp only
      split
      next => exact fun asks => absurd asks not_asks_fail
      next j encrypted =>
        unfold WriteBlobCfgBlob
        split
        next => exact fun asks => absurd asks not_asks_fail
        next =>
          refine fun _ => failing_demand ⟨fun same => ?_,fun same => ?_⟩
          · exact ⟨congrArg (fun c => c.ContentFormat.toMutableParameters) same.repoConfig,
              congrArg RepositoryConfig.RequiredFeatures same.repoConfig⟩
          · obtain ⟨rfl,rfl⟩ := same
            exact ⟨rfl,rfl,rfl,rfl,rfl,.inr ⟨nonce,encrypted⟩⟩

theorem failing_password (newPassword : String) (nonce nonce' : Bytes) (asks : Asks (m.ChangePassword sw newPassword nonce nonce')) :
    Failing (m.ChangePassword sw newPassword nonce nonce')
      (fun m' => SameView sw m m' ↔ NoChange sw m (.change (.ChangePassword newPassword nonce nonce'))) st := by
  revert asks
  unfold Manager.ChangePassword
  split
  next => exact fun asks => absurd asks not_asks_fail
  next =>
    split
    next => exact fun asks => absurd asks not_asks_fail
    next key derived =>
      dsimp only
      split
      next => exact fun asks => absurd asks not_asks_fail
      next j encrypted =>
        unfold WriteBlobCfgBlob
        split
        next => exact fun asks => absurd asks not_asks_fail
        next =>
          refine fun _ => failing_demand ⟨fun same => ?_,fun same => ?_⟩
          · exact ⟨same.password,derived.trans (congrArg some same.formatEncryptionKey)⟩
          · obtain ⟨rfl,known⟩ := same
            cases derived.symm.trans known
            exact ⟨rfl,rfl,rfl,rfl,rfl,.inr ⟨nonce,encrypted⟩⟩

theorem failing_rollback (asks : Asks m.RollbackUpgrade) :
    Failing m.RollbackUpgrade (fun m' => SameView sw m m' ↔ NoChange sw m .RollbackUpgrade) st := by
  revert asks
  unfold Manager.RollbackUpgrade
  split
  next => exact fun asks => absurd asks not_asks_fail
  next =>
    refine fun _ => ⟨nofun,?_⟩
    rintro e ⟨e',same,failed⟩
    cases same
    rw [failed]
    intro m' same
    cases same
    exact iff_of_true (.refl sw m) trivial

end FailedUpdates

/-- After an update of which nothing could be stored the manager remembers what it did before just if nothing was to change. -/
theorem failed_update_forgotten_iff {Key : Type} (sw : Software Key) (m : Manager Key) (op : Operation)
    (asks : Asks (op.call sw m)) {endings : List Ending} {st st' : Storage}
    (nothing : (op.call sw m).Along Storage.perform Nothing endings st) {m' : Manager Key}
    (run : (op.call sw m).steps Storage.perform endings st = (st',some (.error m'))) :
    SameView sw m m' ↔ NoChange sw m op := by
  have failing : Failing (op.call sw m) (fun m' => SameView sw m m' ↔ NoChange sw m op) st := by
    cases op with
    | SetUpgradeLockIntent l nonce => exact failing_set_lock l nonce asks
    | CommitUpgrade nonce => exact failing_commit nonce asks
    | RollbackUpgrade => exact failing_rollback asks
    | change c =>
      cases c with
      | ChangePassword newPassword nonce nonce' => exact failing_password newPassword nonce nonce' asks
      | SetParameters mp blobcfg requiredFeatures nonce nonce' => exact failing_parameters mp blobcfg requiredFeatures nonce nonce' asks
  have ended := failing.steps nothing
  rw [run] at ended
  exact ended m' rfl

section Examples

/-- To set the parameters that there are. -/
def sameParameters : Operation := .change (.SetParameters someParameters .none [] [] [])

theorem failed_update_forgotten_iff_same : ∃ m', (sameParameters.call twoKeys someManager).steps Storage.perform [.fails none] someStorage =
    (someStorage,some (.error m')) ∧ SameView twoKeys someManager m' := by
  have nothing : (sameParameters.call twoKeys someManager).Along Storage.perform Nothing [.fails none] someStorage := ⟨⟨_,rfl,rfl⟩,trivial⟩
  exact ⟨_,rfl,(failed_update_forgotten_iff twoKeys someManager sameParameters ⟨_,_,rfl⟩ nothing rfl).mpr ⟨rfl,rfl⟩⟩

/-- A change of the password that could not be stored is remembered, and the next update uses the new key. -/
theorem failed_update_remembered : ¬ ∀ (Key : Type) (sw : Software Key) (m : Manager Key) (op : Operation), Asks (op.call sw m) →
    ∀ (endings : List Ending) (st st' : Storage) (m' : Manager Key), (op.call sw m).Along Storage.perform Nothing endings st →
    (op.call sw m).steps Storage.perform endings st = (st',some (.error m')) → SameView sw m m' := by
  intro claim
  have same := claim Bool twoKeys someManager (.change (.ChangePassword "new" [] [])) ⟨_,_,rfl⟩ [.fails none] someStorage someStorage _
    ⟨⟨_,rfl,rfl⟩,trivial⟩ rfl
  have differs : ("new" : String) ≠ "old" := by decide
  exact differs same.password

end Examples

end Vbe.Format
