import Vbe.Sharded.Complete

/-! What holds whenever a sharded storage is listed, and a listing by any number of workers. -/
namespace Vbe.Sharded
open Vbe.Library Vbe.Library.Paths Vbe.Parallelwork

section Runs
variable {s : Storage} {parametersFile : Option (Int × Int)} {files : Files} {blobs : Blobs} {dirs : List (List Path)}
  {ReadDir : Path → Option (List FileInfo)} {pre : ID} {t t' : Listing} {l : Label}

/-- How often a blob is to be reported, or has been. -/
def Listing.owed (s : Storage) (b : Metadata) (t : Listing) : Nat :=
  Queue.total (Item.owes s b) (Walk.owes s b) t.queue + t.queue.shared.result.count b + t.reported.count b

/-- Whenever a storage is listed, what is reported is to be reported, and what is to be reported is reported once unless a worker fails. -/
structure Listing.Inv (s : Storage) (blobs : Blobs) (dirs : List (List Path)) (ReadDir : Path → Option (List FileInfo)) (pre : ID)
    (t : Listing) : Prop where
  counted : Queue.Counted t.queue
  items : ∀ i ∈ t.queue.queueItems, Placed s dirs i
  walks : ∀ w, .running w ∈ t.queue.workers → w.Placed s dirs ReadDir
  sound : ∀ b ∈ t.queue.shared.result ++ t.reported, b ∈ blobs.listed pre
  owed : ∀ b ∈ blobs.listed pre, t.owed s b ≤ 1 ∧ (t.owed s b = 1 ∨ Queue.Failed t.queue)
  unfinished : t.outcome = none → t.queue.shared.finished = false
  ended : ∀ ok, t.outcome = some ok → t.queue.shared.result = [] ∧ t.queue.workers.all Listing.stopped = true ∧
    t.queue.workers.all Listing.fine = ok

/-- The listing of a callback that never fails. -/
abbrev stepAll (pre : ID) (ReadDir : Path → Option (List FileInfo)) : Listing → Label → Option Listing :=
  Listing.step pre ReadDir fun _ => true

theorem walking {k : Nat} {cancelled other : Bool} {queue : Queue Item Walk Channels}
    (taken : t.queue.step .walkDir (walk pre ReadDir) (k,cancelled,other) = some queue) : t.queue.workers.all Listing.stopped = false := by
  have working {w : Worker Walk} (found : t.queue.workers[k]? = some w) (goes : Listing.stopped w = false) :
      t.queue.workers.all Listing.stopped = false := by
    rw [Bool.eq_false_iff]
    intro all
    have stop := List.all_eq_true.mp all w (List.mem_of_getElem? found)
    exact absurd (goes.symm.trans stop) Bool.false_ne_true
  cases Queue.moved taken with
  | cancel idle | finish idle | take i items idle => exact working idle rfl
  | act p r running => exact working running rfl
  | complete ok completing => exact working completing rfl

theorem Listing.Inv.open_ (inv : t.Inv s blobs dirs ReadDir pre) {k : Nat} {cancelled other : Bool} {queue : Queue Item Walk Channels}
    (taken : t.queue.step .walkDir (walk pre ReadDir) (k,cancelled,other) = some queue) : t.outcome = none := by
  cases outcome : t.outcome with
  | none => rfl
  | some ok => exact absurd ((walking taken).symm.trans (inv.ended ok outcome).2.1) Bool.false_ne_true

theorem Listing.Inv.worker (held : Held s parametersFile files blobs dirs ReadDir) (inv : t.Inv s blobs dirs ReadDir pre)
    {k : Nat} {cancelled other : Bool} {queue : Queue Item Walk Channels}
    (taken : t.queue.step .walkDir (walk pre ReadDir) (k,cancelled,other) = some queue) :
    ({ t with queue := queue } : Listing).Inv s blobs dirs ReadDir pre := by
  have goes := inv.open_ taken
  have unfinished := inv.unfinished goes
  have counted := Queue.counted_step inv.counted taken
  have failed (failed : Queue.Failed t.queue) := Queue.failed_step failed taken
  cases Queue.stepped taken with
  | turned shared weighs items running =>
    refine ⟨counted,fun i member => inv.items i (items member),fun w member => ?_,?_,fun b listed => ?_,fun _ => ?_,?_⟩
    · rcases running w member with before | ⟨i,waiting,rfl⟩
      · exact inv.walks w before
      · exact inv.items i waiting
    · rw [shared]
      exact inv.sound
    · have same : ({ t with queue := queue } : Listing).owed s b = t.owed s b := by
        have weight := weighs (Item.owes s b) (Walk.owes s b) fun i => rfl
        simp only [Listing.owed,shared,weight]
      rw [same]
      exact ⟨(inv.owed b listed).1,(inv.owed b listed).2.imp id failed⟩
    · rw [shared]
      exact unfinished
    · intro ok outcome
      exact absurd (goes.symm.trans outcome) (by simp)
  | acted w r running acted shared weighs items still returned =>
    have placed := inv.walks w (List.mem_of_getElem? running)
    have acted := acts unfinished acted
    obtain ⟨next,front⟩ := acted.placed held placed
    have same : r.shared.finished = false := by
      cases acted <;> exact unfinished
    refine ⟨counted,fun i member => ?_,fun w' member => ?_,fun b member => ?_,fun b listed => ?_,fun _ => ?_,?_⟩
    · rcases items i member with before | new
      · exact inv.items i before
      · exact front i new
    · rcases still w' member with before | now
      · exact inv.walks w' before
      · exact next w' now
    · rw [shared] at member
      rcases List.mem_append.mp member with sent | reported
      · rcases acted.sound held placed b sent with before | now
        · exact inv.sound b (List.mem_append_left _ before)
        · exact now
      · exact inv.sound b (List.mem_append_right _ reported)
    · obtain ⟨most,once⟩ := inv.owed b listed
      have weight := weighs (Item.owes s b) (Walk.owes s b)
      rw [Listing.owed] at most once ⊢
      rw [shared]
      rcases acted.owes held placed listed with exactly | ⟨fails,atMost⟩
      · have equal : Queue.total (Item.owes s b) (Walk.owes s b) queue + r.shared.result.count b =
            Queue.total (Item.owes s b) (Walk.owes s b) t.queue + t.queue.shared.result.count b := by omega
        dsimp only
        rw [equal]
        exact ⟨most,once.imp id failed⟩
      · dsimp only
        exact ⟨by omega,.inr (.inl (returned false fails))⟩
    · rw [shared]
      exact same
    · intro ok outcome
      exact absurd (goes.symm.trans outcome) (by simp)

theorem Listing.Inv.step (held : Held s parametersFile files blobs dirs ReadDir) (inv : t.Inv s blobs dirs ReadDir pre)
    (taken : stepAll pre ReadDir t l = some t') : t'.Inv s blobs dirs ReadDir pre := by
  cases l with
  | worker k cancelled other =>
    obtain ⟨queue,moved,rfl⟩ := Option.map_eq_some_iff.mp taken
    exact inv.worker held moved
  | receive =>
    rw [stepAll,Listing.step] at taken
    split at taken
    next b rest goes result =>
      cases taken
      refine ⟨⟨inv.counted.active,inv.counted.ended⟩,inv.items,inv.walks,fun b' member => ?_,fun b' listed => ?_,fun _ => rfl,?_⟩
      · refine inv.sound b' ?_
        rw [result]
        have member : b' ∈ rest ++ (t.reported ++ [b]) := member
        simp only [List.mem_append,List.mem_cons] at member ⊢
        tauto
      · have same : ({ queue := { t.queue with shared := ⟨rest,!true⟩ },reported := t.reported ++ [b],outcome := none } : Listing).owed s b' =
            t.owed s b' := by
          simp only [Listing.owed,result,Queue.total,List.count_append,List.count_cons,List.count_nil]
          omega
        exact same ▸ inv.owed b' listed
      · intro ok outcome
        contradiction
    next => contradiction
  | wait =>
    rw [stepAll,Listing.step] at taken
    split at taken
    next ready =>
      obtain ⟨goes,result,stopped⟩ := ready
      cases taken
      refine ⟨⟨inv.counted.active,inv.counted.ended⟩,inv.items,inv.walks,fun b' member => ?_,fun b' listed => ?_,?_,?_⟩
      · exact inv.sound b' (List.mem_append_right _ member)
      · have same := inv.owed b' listed
        rw [Listing.owed,result] at same
        exact same
      · intro outcome
        contradiction
      · intro ok outcome
        exact ⟨rfl,stopped,Option.some.inj outcome⟩
    next => contradiction

theorem inv_start (held : Held s parametersFile files blobs dirs ReadDir) (pre : ID) :
    (Listing.start s).Inv s blobs dirs ReadDir pre := by
  refine ⟨Queue.counted_process _ _ _,fun i member => ?_,fun w member => ?_,fun b absent => ?_,fun b listed => ?_,fun _ => rfl,?_⟩
  · obtain rfl := List.mem_singleton.mp member
    exact Placed.root held.directories
  · have idle := List.eq_of_mem_replicate member
    contradiction
  · exact absurd absent List.not_mem_nil
  · have once : (Listing.start s).owed s b = 1 := by
      obtain ⟨parts,rest,_,here⟩ := location_split s (held.keeps.clear b (mem_listed.mp listed).1)
      have way : leads s b (names s.RootPath) = true := by
        rw [leads_iff,here,List.append_assoc]
        exact List.prefix_append _ _
      simp [Listing.owed,Queue.total,Listing.start,Queue.Process,Queue.EnqueueFront,Item.owes,way]
    rw [once]
    exact ⟨Nat.le_refl 1,.inl rfl⟩
  · intro ok outcome
    contradiction

/-- What is left to do in a listing. -/
def Listing.left (files : Files) (dirs : List (List Path)) (t : Listing) : Nat :=
  t.queue.effort (Item.effort files dirs) (Walk.effort files dirs) + t.queue.shared.result.length + if t.outcome = none then 1 else 0

theorem Listing.Inv.less (held : Held s parametersFile files blobs dirs ReadDir) (inv : t.Inv s blobs dirs ReadDir pre)
    (taken : stepAll pre ReadDir t l = some t') : t'.left files dirs < t.left files dirs := by
  cases l with
  | worker k cancelled other =>
    obtain ⟨queue,moved,rfl⟩ := Option.map_eq_some_iff.mp taken
    have unfinished := inv.unfinished (inv.open_ moved)
    have less := Queue.effort_step (f := Item.effort files dirs) (g := Walk.effort files dirs) (fun c => c.result.length)
      (fun i _ => Nat.le_refl _) (fun p choice r running acted => (acts unfinished acted).less held (inv.walks p running)) moved
    simp only [Listing.left]
    omega
  | receive =>
    rw [stepAll,Listing.step] at taken
    split at taken
    next b rest goes result =>
      cases taken
      simp [Listing.left,result,goes,Queue.effort]
    next => contradiction
  | wait =>
    rw [stepAll,Listing.step] at taken
    split at taken
    next ready =>
      cases taken
      simp [Listing.left,ready.1,ready.2.1,Queue.effort]
    next => contradiction

/-- A listing that has not returned goes on. -/
theorem Listing.Inv.moves (inv : t.Inv s blobs dirs ReadDir pre)
    (goes : t.outcome = none) : ∃ l, l.cancelled = false ∧ stepAll pre ReadDir t l ≠ none := by
  cases result : t.queue.shared.result with
  | cons b rest => exact ⟨.receive,rfl,by simp [stepAll,Listing.step,goes,result]⟩
  | nil =>
    have unfinished := inv.unfinished goes
    have can (w : Walk) : ∃ other, walk pre ReadDir t.queue.shared w other ≠ none := by
      refine ⟨false,?_⟩
      cases w with
      | walkDir i =>
        rw [walk,unfinished,if_neg Bool.false_ne_true]
        split <;> simp
      | entries i rest =>
        cases rest with
        | nil => simp [walk]
        | cons e rest =>
          rw [walk,result]
          split
          next => simp
          next =>
            split
            next => simp
            next =>
              split
              next => simp
              next => simp [resultSize]
    have next := @Queue.exists_step Item Walk Channels Bool .walkDir (walk pre ReadDir) t.queue inv.counted (fun w _ => can w) _
    rcases next with stopped | ⟨l,calm,possible⟩
    · refine ⟨.wait,rfl,?_⟩
      have all : t.queue.workers.all Listing.stopped = true := by
        rw [List.all_eq_true]
        intro w member
        obtain ⟨ok,rfl⟩ := stopped w member
        rfl
      simp [stepAll,Listing.step,goes,result,all]
    · exact ⟨.worker l.1 l.2.1 l.2.2,calm,by simpa [stepAll,Listing.step] using possible⟩

end Runs

/-- All listings of a storage report each of some blobs once, those that fail some of them once, and all that do not fail return. -/
structure Lists (s : Storage) (pre : ID) (dirs : List (List Path)) (ReadDir : Path → Option (List FileInfo)) (expected : List Metadata) :
    Prop where
  reported : ∀ labels t, Runs.run (stepAll pre ReadDir) (.start s) labels = some t → t.reported.Nodup ∧ t.reported ⊆ expected
  whole : ∀ labels t, Runs.run (stepAll pre ReadDir) (.start s) labels = some t → t.outcome = some true → t.reported.Perm expected
  ends : ∃ n, ∀ labels t, Runs.run (stepAll pre ReadDir) (.start s) labels = some t → labels.length ≤ n
  returns : (∀ p, names p ∈ dirs → ReadDir p ≠ none) → ∀ labels t, (∀ l ∈ labels, l.cancelled = false) →
    Runs.run (stepAll pre ReadDir) (.start s) labels = some t →
    t.outcome = some true ∨ t.outcome = none ∧ ∃ l, l.cancelled = false ∧ stepAll pre ReadDir t l ≠ none

/-- After any calls a storage lists what a flat store has, whatever its implementation tells first. -/
def Exact (s : Storage) : Prop :=
  ∀ (parametersFile : Option (Int × Int)) (calls : List Call) (dirs : List (List Path)) (ReadDir : Path → Option (List FileInfo)) (pre : ID),
    (∀ c ∈ calls, Clear c.blobID) → Directories (calls.foldl s.call (s.opened parametersFile)) (names s.RootPath) dirs →
    Reads (calls.foldl s.call (s.opened parametersFile)) dirs ReadDir →
    Lists s pre dirs ReadDir (Blobs.listed (calls.foldl Blobs.call Keyed.empty) pre)

section Main
variable {s : Storage} {parametersFile : Option (Int × Int)} {files : Files} {blobs : Blobs} {dirs : List (List Path)}
  {ReadDir : Path → Option (List FileInfo)} {pre : ID} {t t' : Listing}

theorem inv_run (held : Held s parametersFile files blobs dirs ReadDir) {labels : List Label}
    (reached : Runs.run (stepAll pre ReadDir) (.start s) labels = some t) : t.Inv s blobs dirs ReadDir pre := by
  have kept (u l v) (inv : Listing.Inv s blobs dirs ReadDir pre u) (_ : True) (taken : stepAll pre ReadDir u l = some v) :
      v.Inv s blobs dirs ReadDir pre := inv.step held taken
  exact Runs.invariant kept (inv_start held pre) (Runs.meets_true _ _) reached

/-- The workers stay as many as they are. -/
theorem length_run {labels : List Label} (reached : Runs.run (stepAll pre ReadDir) (.start s) labels = some t) :
    t.queue.workers.length = (if s.ListParallelism = 0 then 1 else s.ListParallelism).toNat := by
  have kept (u l v) (same : u.queue.workers.length = (if s.ListParallelism = 0 then 1 else s.ListParallelism).toNat) (_ : True)
      (taken : stepAll pre ReadDir u l = some v) :
      v.queue.workers.length = (if s.ListParallelism = 0 then 1 else s.ListParallelism).toNat := by
    cases l with
    | worker k cancelled other =>
      obtain ⟨queue,moved,rfl⟩ := Option.map_eq_some_iff.mp taken
      exact (Queue.length_step moved).trans same
    | receive =>
      rw [stepAll,Listing.step] at taken
      split at taken
      next =>
        cases taken
        exact same
      next => contradiction
    | wait =>
      rw [stepAll,Listing.step] at taken
      split at taken
      next =>
        cases taken
        exact same
      next => contradiction
  exact Runs.invariant kept (by simp [Listing.start,Queue.Process]) (Runs.meets_true _ _) reached

/-- No worker fails where all directories can be read and nobody cancels the listing. -/
theorem peaceful_run (held : Held s parametersFile files blobs dirs ReadDir) (readable : ∀ p, names p ∈ dirs → ReadDir p ≠ none)
    {labels : List Label} (calm : ∀ l ∈ labels, l.cancelled = false)
    (reached : Runs.run (stepAll pre ReadDir) (.start s) labels = some t) : ¬ Queue.Failed t.queue := by
  have kept (u l v) (good : Listing.Inv s blobs dirs ReadDir pre u ∧ ¬ Queue.Failed u.queue) (calm : l.cancelled = false ∧ True)
      (taken : stepAll pre ReadDir u l = some v) : Listing.Inv s blobs dirs ReadDir pre v ∧ ¬ Queue.Failed v.queue := by
    refine ⟨good.1.step held taken,?_⟩
    cases l with
    | worker k cancelled other =>
      obtain ⟨queue,moved,rfl⟩ := Option.map_eq_some_iff.mp taken
      have unfinished := good.1.unfinished (good.1.open_ moved)
      refine Queue.peaceful_step good.2 calm.1 (fun w choice r running acted fails => ?_) moved
      have placed := good.1.walks w running
      cases acts unfinished acted with
      | failed i read => exact readable _ (Placed.there placed) read
      | _ => simp at fails
    | receive =>
      rw [stepAll,Listing.step] at taken
      split at taken
      next =>
        cases taken
        exact good.2
      next => contradiction
    | wait =>
      rw [stepAll,Listing.step] at taken
      split at taken
      next =>
        cases taken
        exact good.2
      next => contradiction
  have start : ¬ Queue.Failed (Listing.start s).queue := by
    refine not_or.mpr ⟨fun member => ?_,fun member => ?_⟩
    · have idle := List.eq_of_mem_replicate member
      contradiction
    · have idle := List.eq_of_mem_replicate member
      contradiction
  exact (Runs.invariant kept ⟨inv_start held pre,start⟩ ((Runs.meets_true _ _).and_labels calm) reached).2

theorem lists_of_held (held : Held s parametersFile files blobs dirs ReadDir) (workers : 0 ≤ s.ListParallelism) (pre : ID) :
    Lists s pre dirs ReadDir (blobs.listed pre) := by
  have most {labels : List Label} {t : Listing} (reached : Runs.run (stepAll pre ReadDir) (.start s) labels = some t)
      {b : Metadata} (member : b ∈ t.reported) : b ∈ blobs.listed pre ∧ t.reported.count b ≤ 1 := by
    have inv := inv_run held reached
    have listed := inv.sound b (List.mem_append_right _ member)
    have owed := (inv.owed b listed).1
    rw [Listing.owed] at owed
    exact ⟨listed,by omega⟩
  have once {labels : List Label} {t : Listing} (reached : Runs.run (stepAll pre ReadDir) (.start s) labels = some t) :
      t.reported.Nodup := by
    refine List.nodup_iff_count_le_one.mpr fun b => ?_
    by_cases member : b ∈ t.reported
    · exact (most reached member).2
    · rw [List.count_eq_zero.mpr member]
      exact Nat.zero_le 1
  refine ⟨fun labels t reached => ⟨once reached,fun b member => (most reached member).1⟩,fun labels t reached outcome => ?_,?_,?_⟩
  · have inv := inv_run held reached
    obtain ⟨empty,_,fine⟩ := inv.ended true outcome
    have ended (w) (member : w ∈ t.queue.workers) : w = .stopped true := by
      have good := List.all_eq_true.mp fine w member
      cases w with
      | stopped ok => exact congrArg _ good
      | _ => contradiction
    have some_ : t.queue.workers ≠ [] := by
      have count := length_run reached
      intro none
      rw [none] at count
      split at count
      next => simp at count
      next =>
        rw [List.length_nil] at count
        omega
    refine (List.perm_ext_iff_of_nodup (once reached) ?_).mpr fun b => ⟨fun member => (most reached member).1,fun listed => ?_⟩
    · exact (blobs.nodup.of_map _).filter _
    · have calm : ¬ Queue.Failed t.queue := by
        rintro (completing | stopped)
        · exact absurd (ended _ completing) (by simp)
        · exact absurd (ended _ stopped) (by simp)
      have owed := (inv.owed b listed).2.resolve_right calm
      have drained := inv.counted.drained some_ ended (Item.owes s b) (Walk.owes s b)
      rw [Listing.owed,drained,empty,List.count_nil] at owed
      exact List.count_pos_iff.mp (by omega)
  · refine ⟨(Listing.start s).left files dirs,fun labels t reached => ?_⟩
    have bound := Runs.length_le (Listing.left files dirs) (fun u l v (inv : u.Inv s blobs dirs ReadDir pre) taken => inv.step held taken)
      (fun u l v inv taken => inv.less held taken) (inv_start held pre) reached
    omega
  · intro readable labels t calm reached
    have inv := inv_run held reached
    cases outcome : t.outcome with
    | none => exact .inr ⟨rfl,inv.moves outcome⟩
    | some ok =>
      obtain ⟨_,stopped,fine⟩ := inv.ended ok outcome
      have peaceful := peaceful_run held readable calm reached
      have good : t.queue.workers.all Listing.fine = true := by
        rw [List.all_eq_true] at stopped ⊢
        intro w member
        have stop := stopped w member
        cases w with
        | stopped ok =>
          cases ok with
          | true => rfl
          | false => exact absurd (.inr member) peaceful
        | _ => contradiction
      exact .inl (congrArg some (fine.symm.trans good))

/-- Without workers a listing returns at once. -/
theorem not_exact (none : s.ListParallelism < 0) : ¬ Exact s := by
  intro exact_
  have here : s.location [] = names s.RootPath ++ [makeFileName []] := by
    have unsharded : s.parameters.GetShardDirectoryAndBlob s.RootPath [] = (s.RootPath,[]) := by
      rw [Parameters.GetShardDirectoryAndBlob]
      split
      next => rfl
      next =>
        cases s.parameters.getShardsForBlobID [] with
        | nil => rfl
        | cons size sizes => simp [cutShards]
    rw [Storage.location,Storage.GetShardedPathAndFilePath,unsharded]
    have empty : Clear [] := ⟨by decide,by decide⟩
    exact names_Join (makeFileName_plain empty) _
  have alone (f : File) : f ∈ ([.PutBlob [] 0 0].foldl s.call (s.opened Option.none)).values → f.location = names s.RootPath ++ [makeFileName []] := by
    intro member
    have member : f ∈ [(⟨s.location [],0,0⟩ : File)] := member
    rw [List.mem_singleton.mp member,here]
  have lists := exact_ Option.none [.PutBlob [] 0 0] [names s.RootPath] (fun _ => Option.none) [] (by simp [Call.blobID,Clear])
    ⟨by simp,fun f member inside => ?_,fun f member d above within other => ?_⟩ ⟨by simp,by simp,by simp,by simp⟩
  · have nobody : (if s.ListParallelism = 0 then 1 else s.ListParallelism).toNat = 0 := by
      split <;> omega
    have returned := lists.whole [.wait] ⟨⟨[⟨s.RootPath,[]⟩],0,[],⟨[],true⟩⟩,[],some true⟩
      (by simp [Runs.run,stepAll,Listing.step,Listing.start,nobody,Queue.Process,Queue.EnqueueFront]) rfl
    have length := returned.length_eq
    contradiction
  · have same := (List.mem_singleton.mp inside).symm.trans (alone f member)
    have total := congrArg List.length same
    simp at total
  · rw [alone f member] at within other
    rcases List.prefix_concat_iff.mp within with whole | before
    · exact absurd whole other
    · exact List.mem_singleton.mpr (List.IsPrefix.eq_of_length_le before above.length_le)

theorem listed_iff (s : Storage) :
    (∀ id id', Clear id → Clear id' → id ≠ id' →
      s.parameters.GetShardDirectoryAndBlob s.RootPath id ≠ s.parameters.GetShardDirectoryAndBlob s.RootPath id' ∧
      (s.GetShardedPathAndFilePath id).2 ≠ (s.GetShardedPathAndFilePath id').2) ∧
    (Exact s ↔ 0 ≤ s.ListParallelism) := by
  refine ⟨fun id id' clear clear' differ => ⟨fun same => ?_,fun same => ?_⟩,fun exact_ => ?_,fun workers => ?_⟩
  · exact differ (GetShardDirectoryAndBlob_injective clear clear' same)
  · exact differ (location_injective s clear clear' (congrArg names same))
  · by_contra negative
    exact not_exact (Int.not_le.mp negative) exact_
  · intro parametersFile calls dirs ReadDir pre clear directories reads
    exact lists_of_held ⟨keeps_calls s parametersFile clear,directories,reads⟩ workers pre

/-- A storage in shards of one and three characters whose parallelism is less than nothing. -/
theorem unlisted : ¬ Exact ⟨[slash],-1,⟨[1,3],20,[]⟩⟩ := not_exact (by decide)

end Main

end Vbe.Sharded
