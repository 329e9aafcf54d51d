import Vbe.Format.UpgradeLock

/-! A rollback restores what was there before the upgrade, as long as managers remember what is
stored and no other owner has left a backup. -/
namespace Vbe.Format
open Vbe.Index (Bytes)
open Vbe.Library Vbe.Library.Runs

variable {Key : Type} {sw : Software Key}

section Locks

/-- A repository blob holds an upgrade lock, which its key shows. -/
def HasLock (sw : Software Key) (b : Bytes) : Prop :=
  ∃ j key repoConfig, sw.unmarshalRepository b = some j ∧ j.decryptRepositoryConfig sw key = some repoConfig ∧
    repoConfig.UpgradeLock.isSome

/-- The active lock was first placed when `before` was stored: all blobs since hold a lock. -/
def PlacedAfter (sw : Software Key) (history : List Bytes) (before : Bytes) : Prop :=
  ∃ newer older, history = newer ++ before :: older ∧ newer ≠ [] ∧ (∀ b ∈ newer, HasLock sw b) ∧ ¬ HasLock sw before

theorem hasLock_iff (lawful : sw.Lawful) {j : KopiaRepositoryJSON} {key : Key} {repoConfig : RepositoryConfig}
    (decrypted : j.decryptRepositoryConfig sw key = some repoConfig) :
    HasLock sw (sw.marshalRepository j) ↔ repoConfig.UpgradeLock.isSome := by
  constructor
  · rintro ⟨j',key',repoConfig',parsed,decrypted',locked⟩
    obtain rfl : j = j' := Option.some.inj ((lawful.repository j).symm.trans parsed)
    have same : key = key' := by
      simp only [KopiaRepositoryJSON.decryptRepositoryConfig,Option.ite_none_right_eq_some] at decrypted decrypted'
      obtain ⟨data,opened,_⟩ := Option.bind_eq_some_iff.mp decrypted.2
      obtain ⟨data',opened',_⟩ := Option.bind_eq_some_iff.mp decrypted'.2
      exact lawful.authentic _ _ _ _ _ _ opened opened'
    subst same
    cases decrypted.symm.trans decrypted'
    exact locked
  · exact fun locked => ⟨j,key,repoConfig,lawful.repository j,decrypted,locked⟩

variable {history : List Bytes} {b b' before : Bytes}

theorem PlacedAfter.locked (placed : PlacedAfter sw (b :: history) before) : HasLock sw b := by
  obtain ⟨newer,older,split,some,locked,_⟩ := placed
  cases newer with
  | nil => exact absurd rfl some
  | cons first newer =>
    obtain ⟨rfl,_⟩ := List.cons.inj split
    exact locked _ List.mem_cons_self

theorem PlacedAfter.tail (placed : PlacedAfter sw (b' :: b :: history) before) (locked : HasLock sw b) :
    PlacedAfter sw (b :: history) before := by
  obtain ⟨newer,older,split,some,all,free⟩ := placed
  cases newer with
  | nil => exact absurd rfl some
  | cons first newer =>
    obtain ⟨_,rest⟩ := List.cons.inj split
    refine ⟨newer,older,rest,?_,fun c member => all c (List.mem_cons_of_mem first member),free⟩
    rintro rfl
    obtain ⟨rfl,_⟩ := List.cons.inj rest
    exact free locked

theorem PlacedAfter.head (placed : PlacedAfter sw (b' :: b :: history) before) (free : ¬ HasLock sw b) : before = b := by
  obtain ⟨newer,older,split,some,all,_⟩ := placed
  cases newer with
  | nil => exact absurd rfl some
  | cons first newer =>
    obtain ⟨_,rest⟩ := List.cons.inj split
    cases newer with
    | nil => exact (List.cons.inj rest).1.symm
    | cons second newer =>
      obtain ⟨rfl,_⟩ := List.cons.inj rest
      exact absurd (all _ (by simp)) free

/-- A lock that is active was placed at some time, unless the first blob held one. -/
theorem exists_placed {first : Bytes} (free : ¬ HasLock sw first) (locked : HasLock sw b) (begun : (b :: history).getLast? = some first) :
    ∃ before, PlacedAfter sw (b :: history) before := by
  induction history generalizing b with
  | nil =>
    obtain rfl : b = first := by simpa using begun
    exact absurd locked free
  | cons b2 history ih =>
    by_cases second : HasLock sw b2
    · obtain ⟨before,newer,older,split,some,all,unlocked⟩ := ih second (by simpa using begun)
      refine ⟨before,b :: newer,older,congrArg (b :: ·) split,List.cons_ne_nil _ _,?_,unlocked⟩
      exact List.forall_mem_cons.mpr ⟨locked,all⟩
    · exact ⟨b2,[b],history,rfl,List.cons_ne_nil _ _,by simpa using locked,second⟩

end Locks

section Storing
variable {st : Storage} {id : String} {data : Bytes} {time : Time}

def Storage.backups (st : Storage) : List Blob := st.listing BackupBlobIDPrefix

def Storage.Named (st : Storage) : Prop := (st.map (·.BlobID)).Nodup

theorem named_filter (named : st.Named) (p : Blob → Bool) : Storage.Named (st.filter p) :=
  List.Nodup.sublist (List.filter_sublist.map _) named

theorem named_put (named : st.Named) (blob : Blob) : (st.PutBlob blob).Named := by
  rw [Storage.Named,Storage.PutBlob,List.map_cons,List.nodup_cons]
  refine ⟨fun member => ?_,named_filter named _⟩
  obtain ⟨b,there,same⟩ := List.mem_map.mp member
  exact absurd same (of_decide_eq_true (List.mem_filter.mp there).2)

def isBackup (id : String) : Bool := BackupBlobIDPrefix.toList.isPrefixOf id.toList

theorem backups_eq (st : Storage) : st.backups = st.filter fun b => isBackup b.BlobID := rfl

theorem backups_cons (blob : Blob) (st : Storage) : Storage.backups (blob :: st) =
    if isBackup blob.BlobID then blob :: st.backups else st.backups :=
  List.filter_cons (p := fun b : Blob => isBackup b.BlobID)

theorem backups_filter (other : isBackup id = false) : Storage.backups (st.filter (·.BlobID ≠ id)) = st.backups := by
  rw [backups_eq,backups_eq,List.filter_filter]
  refine List.filter_congr fun b _ => ?_
  by_cases same : b.BlobID = id
  · simp [same,other]
  · simp [same]

theorem backups_put (other : isBackup id = false) : (st.PutBlob ⟨id,data,time⟩).backups = st.backups := by
  rw [Storage.PutBlob,backups_cons,if_neg (by simp [other])]
  exact backups_filter other

/-- A backup of the one name that backups have replaces them. -/
theorem backups_put_only (backup : isBackup id = true) (only : ∀ bk ∈ st.backups, bk.BlobID = id) :
    (st.PutBlob ⟨id,data,time⟩).backups = [⟨id,data,time⟩] := by
  have rest : Storage.backups (st.filter (·.BlobID ≠ id)) = [] := by
    rw [backups_eq,List.filter_filter,List.filter_eq_nil_iff]
    intro b member
    simp only [Bool.and_eq_true,decide_eq_true_eq,not_and,not_not]
    intro inside
    exact only b (List.mem_filter.mpr ⟨member,inside⟩)
  rw [Storage.PutBlob,backups_cons,if_pos backup,rest]

theorem get_of_backup (named : st.Named) {bk : Blob} (member : bk ∈ st.backups) : st.GetBlob bk.BlobID = some bk.data := by
  have there := (List.mem_filter.mp member).1
  rw [Storage.GetBlob]
  cases found : st.find? fun b => b.BlobID = bk.BlobID with
  | none => simpa using List.find?_eq_none.mp found bk there
  | some b =>
    have same := List.inj_on_of_nodup_map named (List.mem_of_find?_eq_some found) there (by simpa using List.find?_some found)
    rw [same]
    rfl

theorem isBackup_repository : isBackup KopiaRepositoryBlobID = false := by decide

theorem isBackup_cfg : isBackup KopiaBlobCfgBlobID = false := by decide

theorem isBackup_poison : isBackup LegacyIndexPoisonBlobID = false := by decide

theorem isBackup_backup (l : UpgradeLockIntent) : isBackup (BackupBlobID l) = true := by
  rw [isBackup,BackupBlobID,String.toList_append,List.isPrefixOf_iff_prefix]
  exact List.prefix_append _ _

end Storing

section Effects
variable {st st' : Storage} {m : Manager Key} {α : Type}

/-- However the calls of a program end, a condition holds of what it leaves. -/
abbrev Leads (p : Call Key α) (post : Storage → Option (Except (Manager Key) α) → Prop) (st : Storage) : Prop :=
  p.Pre Storage.perform (fun _ _ _ => True) post st

theorem leads_put {id : String} {data : Bytes} {r : BlobStorageConfiguration}
    {post : Storage → Option (Except (Manager Key) Unit) → Prop} (stopped : post st none) (failed : post st (some (.error m)))
    (half : ∀ time, post (st.PutBlob ⟨id,data,time⟩) (some (.error m)))
    (done : ∀ time, post (st.PutBlob ⟨id,data,time⟩) (some (.ok ()))) : Leads (demand m (.PutBlob id data r)) post st := by
  refine ⟨fun _ => stopped,fun ending _ => ?_⟩
  cases ending with
  | returns time => exact done time
  | lists blobs => exact failed
  | fails written =>
    cases written with
    | none => exact failed
    | some time => exact half time

theorem leads_delete {id : String} {post : Storage → Option (Except (Manager Key) Unit) → Prop} (stopped : post st none)
    (failed : post st (some (.error m))) (half : post (st.DeleteBlob id) (some (.error m)))
    (done : post (st.DeleteBlob id) (some (.ok ()))) : Leads (demand m (.DeleteBlob id)) post st := by
  refine ⟨fun _ => stopped,fun ending _ => ?_⟩
  cases ending with
  | returns time => exact done
  | lists blobs => exact failed
  | fails written =>
    cases written with
    | none => exact failed
    | some time => exact half

/-- The backups stay, and the repository blob stays or becomes one of a kind. -/
structure Rewrites (st st' : Storage) (new : Bytes → Prop) : Prop where
  named : st'.Named
  backups : st'.backups = st.backups
  repository : st'.GetBlob KopiaRepositoryBlobID = st.GetBlob KopiaRepositoryBlobID ∨
    ∃ b, st'.GetBlob KopiaRepositoryBlobID = some b ∧ new b

variable {new : Bytes → Prop} {named : st.Named}

theorem Rewrites.refl (named : st.Named) : Rewrites st st new := ⟨named,rfl,.inl rfl⟩

theorem Rewrites.repository_put (named : st.Named) {data : Bytes} (made : new data) (time : Time) :
    Rewrites st (st.PutBlob ⟨KopiaRepositoryBlobID,data,time⟩) new :=
  ⟨named_put named _,backups_put isBackup_repository,.inr ⟨data,Storage.GetBlob_PutBlob_self st _,made⟩⟩

theorem Rewrites.put (named : st.Named) {id : String} (other : isBackup id = false) (differs : KopiaRepositoryBlobID ≠ id)
    (data : Bytes) (time : Time) : Rewrites st (st.PutBlob ⟨id,data,time⟩) new :=
  ⟨named_put named _,backups_put other,.inl (Storage.GetBlob_PutBlob st differs)⟩

theorem Rewrites.trans {st'' : Storage} (first : Rewrites st st' new) (second : Rewrites st' st'' new) : Rewrites st st'' new := by
  refine ⟨second.named,second.backups.trans first.backups,?_⟩
  rcases second.repository with same | written
  · rcases first.repository with same' | ⟨b,stored,made⟩
    · exact .inl (same.trans same')
    · exact .inr ⟨b,same.trans stored,made⟩
  · exact .inr written

theorem Rewrites.imp {new' : Bytes → Prop} (rewrites : Rewrites st st' new) (weaken : ∀ b, new b → new' b) : Rewrites st st' new' :=
  ⟨rewrites.named,rewrites.backups,rewrites.repository.imp_right fun ⟨b,stored,made⟩ => ⟨b,stored,weaken b made⟩⟩

theorem leads_repository {data : Bytes} {r : BlobStorageConfiguration} {m' : Manager Key} (named : st.Named) (made : new data) :
    Leads (do demand m (.PutBlob KopiaRepositoryBlobID data r); .answer m' : Call Key (Manager Key))
      (fun st' _ => Rewrites st st' new) st :=
  Query.Pre.bind (leads_put (.refl named) (.refl named) (.repository_put named made) (.repository_put named made))

/-- The repository blob that is written holds a lock if the manager remembers one. -/
theorem leads_update (lawful : sw.Lawful) (named : st.Named) (nonce : Bytes) : Leads (updateRepoConfigLocked sw m nonce)
    (fun st' _ => Rewrites st st' fun b => HasLock sw b ↔ m.repoConfig.UpgradeLock.isSome) st := by
  unfold updateRepoConfigLocked
  split
  next => exact .refl named
  next j encrypted => exact leads_repository named (hasLock_iff lawful ((encrypts encrypted).decrypted lawful))

theorem leads_commit (lawful : sw.Lawful) (named : st.Named) (nonce : Bytes) : Leads (m.CommitUpgrade sw nonce)
    (fun st' _ => Rewrites st st' fun b => ¬ HasLock sw b) st := by
  unfold Manager.CommitUpgrade
  split
  next => exact .refl named
  next lock held =>
    have rest {st1 : Storage} (rewrites : Rewrites st st1 fun b => ¬ HasLock sw b) :
        Leads (updateRepoConfigLocked sw (m.withLock none) nonce) (fun st' _ => Rewrites st st' fun b => ¬ HasLock sw b) st1 :=
      (leads_update lawful rewrites.named nonce).mono fun st2 _ after =>
        rewrites.trans (after.imp fun b same => by simpa [Manager.withLock] using same)
    refine ⟨fun _ => .refl named,fun ending _ => ?_⟩
    cases ending with
    | returns time => exact rest (.put named isBackup_poison (by decide) _ time)
    | lists blobs => exact rest (.refl named)
    | fails written =>
      cases written with
      | none => exact rest (.refl named)
      | some time => exact rest (.put named isBackup_poison (by decide) _ time)

/-- Both blobs are rewritten, the repository blob with a lock if the manager remembers one. -/
theorem leads_both (named : st.Named) {j : KopiaRepositoryJSON} {cfg : BlobStorageConfiguration} {key : Key} {nonce data : Bytes}
    {m m1 m2 : Manager Key} {r : BlobStorageConfiguration} (made : new data) :
    Leads (do WriteBlobCfgBlob sw m j cfg key nonce; demand m1 (.PutBlob KopiaRepositoryBlobID data r); .answer m2 :
      Call Key (Manager Key)) (fun st' _ => Rewrites st st' new) st := by
  refine Query.Pre.bind ?_
  unfold WriteBlobCfgBlob
  split
  next => exact .refl named
  next bytes _ =>
    have half (time : Time) : Rewrites st (st.PutBlob ⟨KopiaBlobCfgBlobID,bytes,time⟩) new :=
      .put named isBackup_cfg (by decide) bytes time
    refine leads_put (.refl named) (.refl named) half fun time => ?_
    exact (leads_repository (half time).named made).mono fun st2 _ after => (half time).trans after

theorem leads_change (lawful : sw.Lawful) (named : st.Named) (c : Change) : Leads (c.call sw m)
    (fun st' _ => Rewrites st st' fun b => HasLock sw b ↔ m.repoConfig.UpgradeLock.isSome) st := by
  cases c with
  | ChangePassword newPassword nonce nonce' =>
    unfold Change.call Manager.ChangePassword
    dsimp only
    split
    next => exact .refl named
    next =>
      split
      next => exact .refl named
      next =>
        split
        next => exact .refl named
        next encrypted => exact leads_both named (hasLock_iff lawful ((encrypts encrypted).decrypted lawful))
  | SetParameters mp blobcfg requiredFeatures nonce nonce' =>
    unfold Change.call Manager.SetParameters
    dsimp only
    split
    next => exact .refl named
    next =>
      split
      next => exact .refl named
      next =>
        split
        next => exact .refl named
        next encrypted =>
          have locked := hasLock_iff lawful ((encrypts encrypted).decrypted lawful)
          exact leads_both named locked

/-- A lock that is updated stays; before a new one a backup is made of what the manager remembers. -/
theorem leads_lock (lawful : sw.Lawful) (named : st.Named) (l : UpgradeLockIntent) (nonce : Bytes) :
    Leads (m.SetUpgradeLockIntent sw l nonce) (fun st' _ => (Rewrites st st' fun b => m.repoConfig.UpgradeLock.isSome ∧ HasLock sw b) ∨
      m.repoConfig.UpgradeLock = none ∧
        ∃ time, Rewrites (st.PutBlob ⟨BackupBlobID l,sw.marshalRepository m.j,time⟩) st' (HasLock sw)) st := by
  unfold Manager.SetUpgradeLockIntent
  split
  next => exact .inl (.refl named)
  next =>
    split
    next free =>
      split
      next => exact .inl (.refl named)
      next =>
        have half (time : Time) := named_put named ⟨BackupBlobID l,sw.marshalRepository m.j,time⟩
        refine Query.Pre.bind (leads_put (.inl (.refl named)) (.inl (.refl named)) ?_ fun time => ?_)
        · exact fun time => .inr ⟨free,time,.refl (half time)⟩
        · refine (leads_update lawful (half time) nonce).mono fun st2 _ after => .inr ⟨free,time,after.imp fun b same => ?_⟩
          exact same.mpr rfl
    next lock held =>
      split
      next => exact .inl (.refl named)
      next newL _ =>
        refine (leads_update lawful named nonce).mono fun st2 _ after => .inl (after.imp fun b same => ?_)
        exact ⟨by simp [held],same.mpr rfl⟩

/-- Names stay unique, and the repository blob is kept or replaced. -/
structure Keeps (st st' : Storage) : Prop where
  named : st'.Named
  repository : st'.GetBlob KopiaRepositoryBlobID = st.GetBlob KopiaRepositoryBlobID ∨
    (st'.GetBlob KopiaRepositoryBlobID).isSome

theorem Keeps.refl (named : st.Named) : Keeps st st := ⟨named,.inl rfl⟩

theorem Keeps.trans {st'' : Storage} (first : Keeps st st') (second : Keeps st' st'') : Keeps st st'' := by
  refine ⟨second.named,?_⟩
  rcases second.repository with same | some
  · exact first.repository.imp same.trans fun there => same ▸ there
  · exact .inr some

theorem repository_ne_backup {id : String} (backup : isBackup id = true) : KopiaRepositoryBlobID ≠ id := by
  rintro rfl
  cases isBackup_repository.symm.trans backup

theorem Keeps.delete (named : st.Named) {id : String} (backup : isBackup id = true) : Keeps st (st.DeleteBlob id) :=
  ⟨named_filter named _,.inl (st.GetBlob_DeleteBlob (repository_ne_backup backup))⟩

theorem Keeps.put (named : st.Named) (data : Bytes) (time : Time) : Keeps st (st.PutBlob ⟨KopiaRepositoryBlobID,data,time⟩) :=
  ⟨named_put named _,.inr (by rw [Storage.GetBlob_PutBlob_self st ⟨KopiaRepositoryBlobID,data,time⟩]; rfl)⟩

theorem leads_delete_keeps (named : st.Named) {id : String} (backup : isBackup id = true) :
    Leads (demand m (.DeleteBlob id)) (fun st' _ => Keeps st st') st :=
  leads_delete (.refl named) (.refl named) (.delete named backup) (.delete named backup)

/-- The backups that are not the oldest go. -/
theorem leads_keepOldest (named : st.Named) (blobs : List Blob) (oldest : Option Blob)
    (backups : ∀ bk ∈ blobs, isBackup bk.BlobID = true) (kept : ∀ bk, oldest = some bk → isBackup bk.BlobID = true) :
    Leads (m.keepOldest blobs oldest) (fun st' result => Keeps st st' ∧
      ∀ bk, result = some (.ok (some bk)) → isBackup bk.BlobID = true) st := by
  induction blobs generalizing st oldest with
  | nil =>
    refine ⟨.refl named,fun bk same => kept bk ?_⟩
    exact Except.ok.inj (Option.some.inj same)
  | cons bm rest ih =>
    have here := backups bm List.mem_cons_self
    have others : ∀ bk ∈ rest, isBackup bk.BlobID = true := fun bk member => backups bk (List.mem_cons_of_mem bm member)
    have deleting {id : String} {next : Blob} (gone : isBackup id = true) (backup : isBackup next.BlobID = true) :
        Leads (do demand m (.DeleteBlob id); m.keepOldest rest (some next)) (fun st' result => Keeps st st' ∧
          ∀ bk, result = some (.ok (some bk)) → isBackup bk.BlobID = true) st := by
      refine Query.Pre.bind ((leads_delete_keeps named gone).mono fun st1 result keeps => ?_)
      match result with
      | none => exact ⟨keeps,nofun⟩
      | some (.error _) => exact ⟨keeps,nofun⟩
      | some (.ok _) =>
        refine (ih keeps.named (some next) others fun bk same => Option.some.inj same ▸ backup).mono fun st2 _ after => ?_
        exact ⟨keeps.trans after.1,after.2⟩
    cases oldest with
    | none => exact ih named (some bm) others fun bk same => Option.some.inj same ▸ here
    | some oldest =>
      unfold Manager.keepOldest
      split
      next => exact deleting (kept oldest rfl) here
      next => exact deleting here (kept oldest rfl)

abbrev Ended (Key : Type) := Option (Except (Manager Key) (Manager Key))

/-- A blob is restored if anything is done, and certainly where that succeeds. -/
def Restored (st : Storage) (d : Bytes) (st' : Storage) (result : Ended Key) : Prop :=
  Keeps st st' ∧ (st'.GetBlob KopiaRepositoryBlobID = some d ∨ st' = st ∧ ∀ m', result ≠ some (.ok m'))

theorem Restored.stopped (named : st.Named) (d : Bytes) : @Restored Key st d st none :=
  ⟨.refl named,.inr ⟨rfl,fun _ => nofun⟩⟩

theorem Restored.failed (named : st.Named) (d : Bytes) (m : Manager Key) : Restored st d st (some (.error m)) :=
  ⟨.refl named,.inr ⟨rfl,fun _ => nofun⟩⟩

theorem leads_restore (named : st.Named) {oldest : Blob} (backup : isBackup oldest.BlobID = true) (d : Bytes) :
    Leads (do demand m (.PutBlob KopiaRepositoryBlobID d .none); demand m (.DeleteBlob oldest.BlobID); .answer m : Call Key (Manager Key))
      (Restored st d) st := by
  have stored (time : Time) : (st.PutBlob ⟨KopiaRepositoryBlobID,d,time⟩).GetBlob KopiaRepositoryBlobID = some d :=
    Storage.GetBlob_PutBlob_self st ⟨KopiaRepositoryBlobID,d,time⟩
  have half (time : Time) (result : Ended Key) : Restored st d (st.PutBlob ⟨KopiaRepositoryBlobID,d,time⟩) result :=
    ⟨.put named d time,.inl (stored time)⟩
  have both (time : Time) (result : Ended Key) :
      Restored st d ((st.PutBlob ⟨KopiaRepositoryBlobID,d,time⟩).DeleteBlob oldest.BlobID) result :=
    ⟨(Keeps.put named d time).trans (.delete (Keeps.put named d time).named backup),
      .inl ((Storage.GetBlob_DeleteBlob _ (repository_ne_backup backup)).trans (stored time))⟩
  refine Query.Pre.bind (leads_put (.stopped named d) (.failed named d m) (fun time => half time _) fun time => ?_)
  exact Query.Pre.bind (leads_delete (half time _) (half time _) (both time _) (both time _))

/-- A rollback keeps what it should, and restores a single backup. -/
def RolledBack (st st' : Storage) (result : Ended Key) : Prop :=
  Keeps st st' ∧ ∀ bk, st.backups = [bk] → st'.GetBlob KopiaRepositoryBlobID = some bk.data ∨
    st' = st ∧ ∀ m', result ≠ some (.ok m')

theorem RolledBack.stopped (named : st.Named) : @RolledBack Key st st none := ⟨.refl named,fun _ _ => .inr ⟨rfl,fun _ => nofun⟩⟩

theorem RolledBack.failed (named : st.Named) (m : Manager Key) : RolledBack st st (some (.error m)) :=
  ⟨.refl named,fun _ _ => .inr ⟨rfl,fun _ => nofun⟩⟩

/-- The blob that is read from a backup is restored. -/
theorem leads_read (named : st.Named) {oldest : Blob} (backup : isBackup oldest.BlobID = true) :
    Leads (.ask (.GetBlob oldest.BlobID) fun reply =>
      match reply with
      | .data d => do
        demand m (.PutBlob KopiaRepositoryBlobID d .none)
        demand m (.DeleteBlob oldest.BlobID)
        .answer m
      | _ => .fail m : Call Key (Manager Key))
      (fun st' result => Keeps st st' ∧ ∀ d, st.GetBlob oldest.BlobID = some d → Restored st d st' result) st := by
  refine ⟨fun _ => ⟨.refl named,fun d _ => .stopped named d⟩,fun ending _ => ?_⟩
  cases ending with
  | lists blobs => exact ⟨.refl named,fun d _ => .failed named d m⟩
  | fails written => cases written <;> exact ⟨.refl named,fun d _ => .failed named d m⟩
  | returns time =>
    cases found : st.GetBlob oldest.BlobID with
    | none =>
      simp only [Storage.perform,found]
      exact ⟨.refl named,nofun⟩
    | some d =>
      simp only [Storage.perform,found]
      exact (leads_restore named backup d).mono fun st2 result after => ⟨after.1,fun d' same => Option.some.inj same ▸ after⟩

theorem leads_rollback (named : st.Named) : Leads m.RollbackUpgrade (RolledBack st) st := by
  unfold Manager.RollbackUpgrade
  split
  next => exact .failed named m
  next lock held =>
    have listed {blobs : List Blob} (perm : blobs.Perm st.backups) {rest : Option Blob → Call Key (Manager Key)}
        (ends : ∀ st1, st1.Named → Leads (rest none) (fun st' _ => Keeps st1 st') st1)
        (reads : ∀ oldest st1, isBackup oldest.BlobID = true → st1.Named → Leads (rest (some oldest))
          (fun st' result => Keeps st1 st' ∧ ∀ d, st1.GetBlob oldest.BlobID = some d → Restored st1 d st' result) st1) :
        Leads (m.keepOldest blobs none >>= rest) (RolledBack st) st := by
      have backups : ∀ bk ∈ blobs, isBackup bk.BlobID = true := fun bk member =>
        (List.mem_filter.mp (perm.mem_iff.mp member)).2
      by_cases single : ∃ bk, st.backups = [bk]
      · obtain ⟨bk,only⟩ := single
        obtain rfl : blobs = [bk] := List.perm_singleton.mp (only ▸ perm)
        refine (reads bk st (backups bk List.mem_cons_self) named).mono fun st2 result after => ⟨after.1,fun bk' same => ?_⟩
        obtain rfl : bk = bk' := by simpa [only] using same
        exact (after.2 _ (get_of_backup named (only ▸ List.mem_cons_self))).2
      · refine Query.Pre.bind ((leads_keepOldest named blobs none backups (by simp)).mono fun st1 result kept => ?_)
        have many {st' : Storage} {result : Ended Key} (keeps : Keeps st st') : RolledBack st st' result :=
          ⟨keeps,fun bk only => absurd ⟨bk,only⟩ single⟩
        rcases result with _ | _ | _ | oldest
        · exact many kept.1
        · exact many kept.1
        · exact (ends st1 kept.1.named).mono fun st2 result after => many (kept.1.trans after)
        · exact (reads oldest st1 (kept.2 oldest rfl) kept.1.named).mono fun st2 result after => many (kept.1.trans after.1)
    have ends (st1 : Storage) (named : st1.Named) : Leads (.answer m : Call Key (Manager Key)) (fun st' _ => Keeps st1 st') st1 :=
      .refl named
    refine ⟨fun _ => .stopped named,fun ending _ => ?_⟩
    cases ending with
    | returns time => exact listed (List.Perm.refl _) ends fun _ _ backup named => leads_read named backup
    | fails written => cases written <;> exact .failed named m
    | lists blobs =>
      by_cases perm : blobs.Perm (st.listing BackupBlobIDPrefix)
      · simp only [Storage.perform,if_pos perm]
        exact listed perm ends fun _ _ backup named => leads_read named backup
      · simp only [Storage.perform,if_neg perm]
        exact .failed named m

end Effects

section Runs

/-- A manager remembers what is stored. -/
def Current (sw : Software Key) (st : Storage) (m : Manager Key) : Prop :=
  st.GetBlob KopiaRepositoryBlobID = some (sw.marshalRepository m.j) ∧
    m.j.decryptRepositoryConfig sw m.formatEncryptionKey = some m.repoConfig

/-- No backup is there but one that a new lock replaces. -/
def Operation.Alone (st : Storage) (m : Manager Key) : Operation → Prop
  | SetUpgradeLockIntent l _ => m.repoConfig.UpgradeLock = none → ∀ bk ∈ st.backups, bk.BlobID = BackupBlobID l
  | _ => True

/-- Operations are run by managers that remember what is stored, and a new lock is placed without backups of others. -/
def Careful (sw : Software Key) (w : World Key) : Label → Prop
  | .run k _ op _ => ∀ m, w.managers k = some m → Current sw w.storage m ∧ op.Alone w.storage m
  | _ => True

structure Inv (sw : Software Key) (first : Bytes) (w : World Key) : Prop where
  named : w.storage.Named
  stored : ∃ b older, w.storage.GetBlob KopiaRepositoryBlobID = some b ∧ w.history = b :: older
  begun : w.history.getLast? = some first
  backed : ∀ before, PlacedAfter sw w.history before → ∃ bk, w.storage.backups = [bk] ∧ bk.data = before

variable {first b : Bytes} {older : List Bytes} {w w' : World Key} {st' : Storage} {m : Manager Key}

theorem Inv.remember (inv : Inv sw first w) (k : Nat) (m : Option (Manager Key)) : Inv sw first (w.remember k m) :=
  ⟨inv.named,inv.stored,inv.begun,inv.backed⟩

theorem stores_same (stored : st'.GetBlob KopiaRepositoryBlobID = some b) (history : w.history = b :: older) :
    w.stores st' = { w with storage := st' } := by
  simp [World.stores,stored,history]

theorem stores_new {b' : Bytes} (stored : st'.GetBlob KopiaRepositoryBlobID = some b') (history : w.history = b :: older)
    (differs : b' ≠ b) : w.stores st' = { w with storage := st', history := b' :: b :: older } := by
  simp [World.stores,stored,history,Ne.symm differs]

/-- After an operation the lock that is active is one that has its backup. -/
theorem Inv.stores (inv : Inv sw first w) (stored : w.storage.GetBlob KopiaRepositoryBlobID = some b) (history : w.history = b :: older)
    (named : st'.Named) {b' : Bytes} (stored' : st'.GetBlob KopiaRepositoryBlobID = some b')
    (same : b' = b → ∀ before, PlacedAfter sw (b :: older) before → ∃ bk, st'.backups = [bk] ∧ bk.data = before)
    (new : b' ≠ b → ∀ before, PlacedAfter sw (b' :: b :: older) before → ∃ bk, st'.backups = [bk] ∧ bk.data = before) :
    Inv sw first (w.stores st') := by
  by_cases equal : b' = b
  · subst equal
    rw [stores_same stored' history]
    exact ⟨named,⟨b',older,stored',history⟩,inv.begun,fun before placed => same rfl before (history ▸ placed)⟩
  · rw [stores_new stored' history equal]
    refine ⟨named,⟨b',b :: older,stored',rfl⟩,?_,new equal⟩
    rw [List.getLast?_cons_cons,← history]
    exact inv.begun

/-- A blob that is rewritten holds no lock that was not there. -/
theorem Inv.rewrites (inv : Inv sw first w) (stored : w.storage.GetBlob KopiaRepositoryBlobID = some b) (history : w.history = b :: older)
    {new : Bytes → Prop} (rewrites : Rewrites w.storage st' new) (locks : ∀ b', new b' → HasLock sw b' → HasLock sw b) :
    Inv sw first (w.stores st') := by
  have backed (before : Bytes) (placed : PlacedAfter sw (b :: older) before) : ∃ bk, st'.backups = [bk] ∧ bk.data = before :=
    rewrites.backups ▸ inv.backed before (history ▸ placed)
  rcases rewrites.repository with same | ⟨b',written,made⟩
  · exact inv.stores stored history rewrites.named (same.trans stored) (fun _ => backed) fun differs => absurd rfl differs
  · refine inv.stores stored history rewrites.named written (fun _ => backed) fun _ before placed => ?_
    exact backed before (placed.tail (locks b' made placed.locked))

/-- A new lock is placed after its backup is written. -/
theorem Inv.placed (inv : Inv sw first w) (stored : w.storage.GetBlob KopiaRepositoryBlobID = some b) (history : w.history = b :: older)
    (free : ¬ HasLock sw b) {l : UpgradeLockIntent} {time : Time} (only : ∀ bk ∈ w.storage.backups, bk.BlobID = BackupBlobID l)
    (rewrites : Rewrites (w.storage.PutBlob ⟨BackupBlobID l,b,time⟩) st' (HasLock sw)) : Inv sw first (w.stores st') := by
  have backups := rewrites.backups.trans (backups_put_only (isBackup_backup l) only)
  have kept : (w.storage.PutBlob ⟨BackupBlobID l,b,time⟩).GetBlob KopiaRepositoryBlobID = some b :=
    (w.storage.GetBlob_PutBlob (repository_ne_backup (isBackup_backup l))).trans stored
  rcases rewrites.repository with same | ⟨b',written,_⟩
  · exact inv.stores stored history rewrites.named (same.trans kept) (fun _ _ placed => absurd placed.locked free)
      fun differs => absurd rfl differs
  · refine inv.stores stored history rewrites.named written (fun _ _ placed => absurd placed.locked free) fun _ before placed => ?_
    exact ⟨_,backups,(placed.head free).symm⟩

theorem Inv.rolledBack (inv : Inv sw first w) (stored : w.storage.GetBlob KopiaRepositoryBlobID = some b) (history : w.history = b :: older)
    {result : Ended Key} (rolled : RolledBack w.storage st' result) (locked : b ≠ (st'.GetBlob KopiaRepositoryBlobID).getD b → HasLock sw b) :
    Inv sw first (w.stores st') := by
  obtain ⟨keeps,single⟩ := rolled
  obtain ⟨b',written⟩ : ∃ b', st'.GetBlob KopiaRepositoryBlobID = some b' := by
    rcases keeps.repository with same | some
    · exact ⟨b,same.trans stored⟩
    · exact Option.isSome_iff_exists.mp some
  have restored (before : Bytes) (placed : PlacedAfter sw (b :: older) before) :
      b' = before ∨ st' = w.storage := by
    obtain ⟨bk,only,rfl⟩ := inv.backed before (history ▸ placed)
    rcases single bk only with there | ⟨same,_⟩
    · exact .inl (Option.some.inj (written.symm.trans there))
    · exact .inr same
  refine inv.stores stored history keeps.named written (fun same before placed => ?_) fun differs before placed => ?_
  · rcases restored before placed with rfl | unchanged
    · have held : HasLock sw b := placed.locked
      obtain ⟨_,_,_,_,_,free⟩ := placed
      exact absurd (same ▸ held) free
    · exact unchanged ▸ inv.backed before (history ▸ placed)
  · have held := locked (by simpa [written] using Ne.symm differs)
    have earlier := placed.tail held
    rcases restored before earlier with rfl | unchanged
    · obtain ⟨_,_,_,_,_,free⟩ := earlier
      exact absurd placed.locked free
    · exact absurd (Option.some.inj (written.symm.trans (unchanged ▸ stored))) differs

theorem hasLock_at (version : Int) (b : Bytes) : HasLock (sw.at version) b ↔ HasLock sw b := Iff.rfl

theorem lawful_at (lawful : sw.Lawful) (version : Int) : (sw.at version).Lawful :=
  ⟨lawful.repository,lawful.config,lawful.blobCfg,lawful.decrypts,lawful.authentic⟩

theorem runs_leads (op : Operation) (version : Int) {post : Storage → Ended Key → Prop} {st : Storage} (endings : List Ending)
    (leads : Leads (op.call (sw.at version) m) post st) :
    post (op.runs sw m version endings st).1 (op.runs sw m version endings st).2 :=
  leads.steps (Query.along_true _ endings st)

theorem Inv.operation (lawful : sw.Lawful) (inv : Inv sw first w) (current : Current sw w.storage m) (version : Int) (op : Operation)
    (alone : op.Alone w.storage m) (endings : List Ending) : Inv sw first (w.stores (op.runs sw m version endings w.storage).1) := by
  obtain ⟨b,older,stored,history⟩ := inv.stored
  obtain rfl : b = sw.marshalRepository m.j := Option.some.inj (stored.symm.trans current.1)
  have shows := hasLock_iff lawful current.2
  have lawful' := lawful_at lawful version
  cases op with
  | CommitUpgrade nonce =>
    have after := runs_leads (.CommitUpgrade nonce) version endings (leads_commit (m := m) lawful' inv.named nonce)
    exact inv.rewrites stored history after fun b' free locked => absurd locked free
  | change c =>
    have after := runs_leads (.change c) version endings (leads_change (m := m) lawful' inv.named c)
    exact inv.rewrites stored history after fun b' same locked => shows.mpr (same.mp locked)
  | SetUpgradeLockIntent l nonce =>
    have after := runs_leads (.SetUpgradeLockIntent l nonce) version endings (leads_lock (m := m) lawful' inv.named l nonce)
    rcases after with after | ⟨free,time,after⟩
    · exact inv.rewrites stored history after fun b' both _ => shows.mpr both.1
    · exact inv.placed stored history (fun locked => by simpa [free] using shows.mp locked) (alone free) after
  | RollbackUpgrade =>
    have after := @runs_leads Key sw m .RollbackUpgrade version _ _ endings (leads_rollback inv.named)
    refine inv.rolledBack stored history after fun differs => ?_
    by_contra free
    have none : m.repoConfig.UpgradeLock = none := by simpa using fun some => free (shows.mpr some)
    have unchanged : (Operation.RollbackUpgrade.runs sw m version endings w.storage).1 = w.storage := by
      simp only [Operation.runs,Operation.call,Manager.RollbackUpgrade,none,Query.steps]
    rw [unchanged,stored] at differs
    exact differs rfl

/-- A careful step keeps the backup of the lock. -/
theorem Inv.step (lawful : sw.Lawful) {l : Label} (inv : Inv sw first w) (careful : Careful sw w l) (taken : step sw w l = some w') :
    Inv sw first w' := by
  cases l with
  | NewManager k version password =>
    obtain rfl := Option.some.inj taken
    exact inv.remember k _
  | refresh k version =>
    simp only [Format.step] at taken
    split at taken
    next => exact nomatch taken
    next m known =>
      split at taken
      next => exact Option.some.inj taken ▸ inv
      next m' _ => exact Option.some.inj taken ▸ inv.remember k _
  | run k version op endings =>
    simp only [Format.step] at taken
    split at taken
    next => exact nomatch taken
    next m known =>
      have after := inv.operation lawful (careful m known).1 version op (careful m known).2 endings
      split at taken
      all_goals
        next ended =>
          rw [ended] at after
          obtain rfl := Option.some.inj taken
          exact after.remember k _

/-- A repository without backups and without a lock, before any manager is made. -/
structure Fresh (sw : Software Key) (w : World Key) (first : Bytes) : Prop where
  named : w.storage.Named
  stored : w.storage.GetBlob KopiaRepositoryBlobID = some first
  unlocked : ¬ HasLock sw first
  unbacked : w.storage.backups = []
  unmanaged : ∀ k, w.managers k = none
  history : w.history = [first]

theorem Fresh.inv (fresh : Fresh sw w first) : Inv sw first w := by
  refine ⟨fresh.named,⟨first,[],fresh.stored,fresh.history⟩,by simp [fresh.history],fun before placed => ?_⟩
  rw [fresh.history] at placed
  exact absurd placed.locked fresh.unlocked

/-- A rollback that succeeds restores the blob that the active lock was first placed after. -/
def Restores (sw : Software Key) (w : World Key) (k : Nat) (version : Int) (endings : List Ending) : Prop :=
  ∀ m st' m', w.managers k = some m → Operation.RollbackUpgrade.runs sw m version endings w.storage = (st',some (.ok m')) →
    ∃ before, PlacedAfter sw w.history before ∧ st'.GetBlob KopiaRepositoryBlobID = some before

theorem Inv.restores (lawful : sw.Lawful) (inv : Inv sw first w) (unlocked : ¬ HasLock sw first) {k : Nat} {version : Int}
    {endings : List Ending} (careful : Careful sw w (.run k version .RollbackUpgrade endings)) : Restores sw w k version endings := by
  intro m st' m' known ended
  obtain ⟨b,older,stored,history⟩ := inv.stored
  obtain ⟨current,_⟩ := careful m known
  obtain rfl : b = sw.marshalRepository m.j := Option.some.inj (stored.symm.trans current.1)
  have locked : HasLock sw (sw.marshalRepository m.j) := by
    refine (hasLock_iff lawful current.2).mpr ?_
    cases held : m.repoConfig.UpgradeLock with
    | none =>
      rw [Operation.runs,Operation.call,Manager.RollbackUpgrade,held] at ended
      exact nomatch ended
    | some lock => rfl
  obtain ⟨before,placed⟩ := exists_placed unlocked locked (history ▸ inv.begun)
  obtain ⟨bk,only,rfl⟩ := inv.backed before (history ▸ placed)
  refine ⟨bk.data,history ▸ placed,?_⟩
  have after := @runs_leads Key sw m .RollbackUpgrade version _ _ endings (leads_rollback inv.named)
  rw [ended] at after
  rcases after.2 bk only with there | ⟨_,unsuccessful⟩
  · exact there
  · exact absurd rfl (unsuccessful m')

theorem rollback_restores (sw : Software Key) (lawful : sw.Lawful) (w : World Key) (first : Bytes) (fresh : Fresh sw w first)
    (labels : List Label) (k : Nat) (version : Int) (endings : List Ending)
    (careful : Meets (step sw) (Careful sw) w (labels ++ [.run k version .RollbackUpgrade endings])) (w' : World Key)
    (reached : run (step sw) w labels = some w') : Restores sw w' k version endings := by
  obtain ⟨before,last⟩ := careful.append reached
  have inv := invariant (fun s l t inv careful taken => Inv.step lawful inv careful taken) fresh.inv before reached
  exact inv.restores lawful fresh.unlocked last.1

end Runs

section Examples

def someLock (owner : String) : UpgradeLockIntent := ⟨owner,0,0,60,1,"upgrading",1⟩

def largerPacks : Change := .SetParameters { someParameters with MaxPackSize := 20971521 } .none [] [] []

/-- The manager after it has made packs larger, with what is then stored. -/
noncomputable def changed : Manager Bool :=
  let repoConfig := { someConfig with
    ContentFormat := { someConfig.ContentFormat with MaxPackSize := 20971521 } }
  { someManager with
    repoConfig := repoConfig
    j := { someRepository with EncryptedFormatBytes := 1 :: Texts.marshal someConfig repoConfig } }

noncomputable def placed : Manager Bool :=
  let m := (changed.withLock (some (someLock "B"))).withVersion 4
  { m with j := { someRepository with EncryptedFormatBytes := 1 :: Texts.marshal someConfig m.repoConfig } }

noncomputable def afterChange (st : Storage) : Storage :=
  (st.PutBlob ⟨KopiaBlobCfgBlobID,1 :: twoKeys.marshalBlobCfg .none,2⟩).PutBlob
    ⟨KopiaRepositoryBlobID,twoKeys.marshalRepository changed.j,3⟩

noncomputable def afterPlacement (st : Storage) : Storage :=
  ((afterChange st).PutBlob ⟨BackupBlobID (someLock "B"),twoKeys.marshalRepository changed.j,4⟩).PutBlob
    ⟨KopiaRepositoryBlobID,twoKeys.marshalRepository placed.j,5⟩

theorem runs_change (st : Storage) : (Operation.change largerPacks).runs twoKeys someManager 4 [.returns 2,.returns 3] st =
    (afterChange st,some (.ok changed)) := rfl

theorem runs_placement (st : Storage) :
    (Operation.SetUpgradeLockIntent (someLock "B") []).runs twoKeys changed 4 [.returns 4,.returns 5] (afterChange st) =
      (afterPlacement st,some (.ok placed)) := rfl


theorem changed_shows : changed.j.decryptRepositoryConfig twoKeys changed.formatEncryptionKey = some changed.repoConfig :=
  Texts.unmarshal_marshal _ _

theorem placed_shows : placed.j.decryptRepositoryConfig twoKeys placed.formatEncryptionKey = some placed.repoConfig :=
  Texts.unmarshal_marshal _ _

theorem someManager_shows : someRepository.decryptRepositoryConfig twoKeys true = some someConfig :=
  (congrArg twoKeys.unmarshalConfig (Texts.marshal_least someConfig).symm).trans (Texts.unmarshal_marshal _ _)

theorem marshal_someRepository : twoKeys.marshalRepository someRepository = [] := Texts.marshal_least _

theorem someRepository_unlocked : ¬ HasLock twoKeys [] := by
  rw [← marshal_someRepository,hasLock_iff twoKeys_lawful someManager_shows]
  nofun

theorem changed_unlocked : ¬ HasLock twoKeys (twoKeys.marshalRepository changed.j) := by
  rw [hasLock_iff twoKeys_lawful changed_shows]
  nofun

theorem placed_locked : HasLock twoKeys (twoKeys.marshalRepository placed.j) :=
  (hasLock_iff twoKeys_lawful placed_shows).mpr rfl

theorem changed_differs : twoKeys.marshalRepository changed.j ≠ [] := by
  intro same
  have parsed := twoKeys_lawful.repository changed.j
  rw [same,← marshal_someRepository,twoKeys_lawful.repository] at parsed
  have shown := changed_shows
  rw [← Option.some.inj parsed] at shown
  exact absurd (congrArg (·.ContentFormat.MaxPackSize) (Option.some.inj (someManager_shows.symm.trans shown))) (by decide)

theorem step_change {w : World Bool} (known : w.managers 1 = some someManager) (history : w.history = [[]]) :
    step twoKeys w (.run 1 4 (.change largerPacks) [.returns 2,.returns 3]) =
      some ⟨afterChange w.storage,Function.update w.managers 1 (some changed),[twoKeys.marshalRepository changed.j,[]]⟩ := by
  simp only [step,known,runs_change]
  rw [stores_new (Storage.GetBlob_PutBlob_self _ _) history changed_differs]
  rfl

theorem step_placement {st : Storage} {managers : Nat → Option (Manager Bool)} (known : managers 1 = some changed) :
    step twoKeys ⟨afterChange st,managers,[twoKeys.marshalRepository changed.j,[]]⟩
      (.run 1 4 (.SetUpgradeLockIntent (someLock "B") []) [.returns 4,.returns 5]) =
      some ⟨afterPlacement st,Function.update managers 1 (some placed),
        [twoKeys.marshalRepository placed.j,twoKeys.marshalRepository changed.j,[]]⟩ := by
  have differs : twoKeys.marshalRepository placed.j ≠ twoKeys.marshalRepository changed.j := fun same =>
    changed_unlocked (same ▸ placed_locked)
  simp only [step,known,runs_placement]
  rw [stores_new (Storage.GetBlob_PutBlob_self _ _) rfl differs]
  rfl

/-- A manager makes packs larger and places a lock. -/
theorem run_placement {w : World Bool} (known : w.managers 1 = some someManager) (history : w.history = [[]]) :
    run (step twoKeys) w [.run 1 4 (.change largerPacks) [.returns 2,.returns 3],
      .run 1 4 (.SetUpgradeLockIntent (someLock "B") []) [.returns 4,.returns 5]] =
    some ⟨afterPlacement w.storage,Function.update (Function.update w.managers 1 (some changed)) 1 (some placed),
      [twoKeys.marshalRepository placed.j,twoKeys.marshalRepository changed.j,[]]⟩ :=
  (run_cons (step_change known history)).trans (run_cons (step_placement (Function.update_self 1 _ _)))

def someWorld : World Bool := ⟨someStorage,fun _ => none,[[]]⟩

theorem someWorld_fresh : Fresh twoKeys someWorld [] :=
  ⟨List.nodup_singleton _,rfl,someRepository_unlocked,by decide,fun _ => rfl,rfl⟩

theorem step_NewManager {w : World Bool} (stored : w.storage = someStorage) (k : Nat) :
    step twoKeys w (.NewManager k 4 "old") = some (w.remember k (some someManager)) := by
  rw [step,stored,NewManager_at (by decide) someManager_opened]

theorem rollback_restores_placed : ∃ w, w.storage = afterPlacement someStorage ∧
    Restores twoKeys w 1 4 [.returns 6,.returns 7,.returns 8,.returns 9] := by
  have first := step_NewManager (w := someWorld) rfl 1
  have rest := run_placement (w := someWorld.remember 1 (some someManager)) rfl rfl
  have careful : Meets (step twoKeys) (Careful twoKeys) someWorld ([.NewManager 1 4 "old",
      .run 1 4 (.change largerPacks) [.returns 2,.returns 3],
      .run 1 4 (.SetUpgradeLockIntent (someLock "B") []) [.returns 4,.returns 5]] ++
      [.run 1 4 .RollbackUpgrade [.returns 6,.returns 7,.returns 8,.returns 9]]) := by
    refine .cons trivial first (.cons ?_ (step_change rfl rfl) (.cons ?_ (step_placement rfl) ⟨?_,fun _ _ => trivial⟩))
    · intro m known
      obtain rfl := Option.some.inj known
      exact ⟨⟨congrArg some marshal_someRepository.symm,someManager_shows⟩,trivial⟩
    · intro m known
      obtain rfl := Option.some.inj known
      exact ⟨⟨Storage.GetBlob_PutBlob_self _ _,changed_shows⟩,fun _ bk member => nomatch member⟩
    · intro m known
      obtain rfl := Option.some.inj known
      exact ⟨⟨Storage.GetBlob_PutBlob_self _ _,placed_shows⟩,trivial⟩
  have reached := (run_cons first).trans rest
  exact ⟨_,rfl,rollback_restores twoKeys twoKeys_lawful someWorld [] someWorld_fresh _ 1 4 _ careful _ reached⟩

/-- The backup of an owner whose placement stopped. -/
noncomputable def left : Blob := ⟨BackupBlobID (someLock "A"),twoKeys.marshalRepository someRepository,1⟩

theorem runs_rollback : Operation.RollbackUpgrade.runs twoKeys placed 4
    [.returns 6,.returns 7,.returns 8,.returns 9,.returns 10] (afterPlacement (someStorage.PutBlob left)) =
    ((((afterPlacement (someStorage.PutBlob left)).DeleteBlob (BackupBlobID (someLock "B"))).PutBlob
      ⟨KopiaRepositoryBlobID,left.data,9⟩).DeleteBlob left.BlobID,some (.ok placed)) := by
  rfl

/-- A placement that stops after the backup leaves it to the rollbacks of others. -/
theorem rollback_restores_older : ¬ ∀ (Key : Type) (sw : Software Key), sw.Lawful → ∀ (w : World Key) (first : Bytes),
    Fresh sw w first → ∀ (labels : List Label) (k : Nat) (version : Int) (endings : List Ending) (w' : World Key),
    run (step sw) w labels = some w' → Restores sw w' k version endings := by
  intro claim
  have first := step_NewManager (w := someWorld) rfl 0
  have second := step_NewManager (w := someWorld.remember 0 (some someManager)) rfl 1
  have stopped : ∃ managers, managers 1 = some someManager ∧
      step twoKeys ((someWorld.remember 0 (some someManager)).remember 1 (some someManager))
        (.run 0 4 (.SetUpgradeLockIntent (someLock "A") []) [.returns 1]) = some ⟨someStorage.PutBlob left,managers,[[]]⟩ := ⟨_,rfl,rfl⟩
  obtain ⟨managers,known,third⟩ := stopped
  have reached := (run_cons first).trans ((run_cons second).trans ((run_cons third).trans (run_placement known rfl)))
  have last : Function.update (Function.update managers 1 (some changed)) 1 (some placed) 1 = some placed :=
    Function.update_self 1 _ _
  obtain ⟨before,after,restored⟩ := claim Bool twoKeys twoKeys_lawful someWorld [] someWorld_fresh _ 1 4
    [.returns 6,.returns 7,.returns 8,.returns 9,.returns 10] _ reached placed _ placed last runs_rollback
  obtain rfl : before = twoKeys.marshalRepository changed.j := after.head changed_unlocked
  exact changed_differs ((Option.some.inj restored).symm.trans marshal_someRepository)

end Examples
end Vbe.Format
