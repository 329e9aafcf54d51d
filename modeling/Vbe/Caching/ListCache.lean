import Vbe.Caching.Blobs
import Vbe.Library.Runs

/-! Cached lists of blobs. The calls of concurrent goroutines advance one call to a storage at a
time; a world remembers what has happened, the latest first. -/
namespace Vbe.Caching
open Vbe.Index (Bytes BlobID)
open Vbe.Library.Runs

structure CachedList where
  ExpireAfter : Time
  Blobs : List Metadata
deriving DecidableEq

/-- Where a goroutine is in its call. -/
inductive Call
  | listing (p : BlobID)
  | missed (p : BlobID)
  | listed (p : BlobID) (cached : CachedList)
  | writing (w : Write)
  | invalidating (ok : Bool) (rest : List BlobID)
deriving DecidableEq

inductive Event
  | began (c : Nat) (call : Call)
  | wrote (c : Nat) (w : Write)
  | dropped (c : Nat) (p : BlobID)
  | acknowledged (c : Nat)
  | missed (c : Nat) (p : BlobID)
  | listed (c : Nat) (p : BlobID)
  | reported (c : Nat) (blobs : List Metadata)
  | failed (c : Nat)
deriving DecidableEq

structure ListCacheStorage where
  prefixes : List BlobID
  cacheDuration : Time

structure World where
  storage : List Metadata
  cacheStorage : BlobID → Option CachedList
  cacheTime : Time
  calls : Nat → Option Call
  /-- The number of the next call. -/
  next : Nat
  history : List Event

/-- What the goroutines and their surroundings do: a call begins, a call makes its next call to a
storage, which may fail, a write that fails may have been done, and time passes. -/
inductive Label
  | ListBlobs (p : BlobID)
  | PutBlob (blob : Metadata)
  | DeleteBlob (blobID : BlobID)
  | advance (c : Nat)
  | fails (c : Nat) (done : Bool)
  | passes (time : Nat)
deriving DecidableEq

namespace World

def begin' (w : World) (call : Call) : World :=
  { w with
    calls := Function.update w.calls w.next (some call)
    next := w.next + 1
    history := .began w.next call :: w.history }

def goes (w : World) (c : Nat) (call : Option Call) (e : Event) : World :=
  { w with calls := Function.update w.calls c call, history := e :: w.history }

def readBlobsFromCache (w : World) (p : BlobID) : Option CachedList :=
  match w.cacheStorage p with
  | some cl => if w.cacheTime < cl.ExpireAfter then some cl else none
  | none => none

def listBlobs (w : World) (p : BlobID) : List Metadata := w.storage.filter fun blob => p.isPrefixOf blob.BlobID

end World

variable (s : ListCacheStorage)

/-- The next call of a goroutine to one of the storages. -/
def advance (w : World) (c : Nat) : Call → World
  | .listing p =>
    if p ∈ s.prefixes then
      match w.readBlobsFromCache p with
      | some cached => w.goes c none (.reported c cached.Blobs)
      | none => w.goes c (some (.missed p)) (.missed c p)
    else w.goes c none (.reported c (w.listBlobs p))
  | .missed p => w.goes c (some (.listed p ⟨w.cacheTime + s.cacheDuration,w.listBlobs p⟩)) (.listed c p)
  | .listed p cached =>
    { w with cacheStorage := Function.update w.cacheStorage p (some cached) }.goes c none (.reported c cached.Blobs)
  | .writing op =>
    { w with storage := op.apply w.storage }.goes c
      (some (.invalidating true (s.prefixes.filter (·.isPrefixOf op.blobID)))) (.wrote c op)
  | .invalidating ok (p :: rest) =>
    { w with cacheStorage := Function.update w.cacheStorage p none }.goes c (some (.invalidating ok rest)) (.dropped c p)
  | .invalidating ok [] => w.goes c none (if ok then .acknowledged c else .failed c)

/-- A call to the underlying storage fails. A write may have been done all the same, and lists are invalidated. -/
def fails (w : World) (c : Nat) (done : Bool) : Call → Option World
  | .listing p => if p ∈ s.prefixes then none else some (w.goes c none (.failed c))
  | .missed _ => some (w.goes c none (.failed c))
  | .writing op =>
    let invalidating : Call := .invalidating false (s.prefixes.filter (·.isPrefixOf op.blobID))
    if done then some ({ w with storage := op.apply w.storage }.goes c (some invalidating) (.wrote c op))
    else some (w.goes c (some invalidating) (.failed c))
  | _ => none

def step (w : World) : Label → Option World
  | .ListBlobs p => some (w.begin' (.listing p))
  | .PutBlob blob => some (w.begin' (.writing (.put blob)))
  | .DeleteBlob blobID => some (w.begin' (.writing (.delete blobID)))
  | .advance c => (w.calls c).map (advance s w c)
  | .fails c done => (w.calls c).bind (fails s w c done)
  | .passes time => some { w with cacheTime := w.cacheTime + time }

/-- A world before any call, with whatever is stored and cached. -/
def World.Fresh (w : World) : Prop := (∀ c, w.calls c = none) ∧ w.history = []

/-- A list of a cached prefix that began after a write was acknowledged has the blob if it was put, and lacks it if it
was deleted, unless the blob was written once more before the list was reported. -/
def Reflects (history : List Event) : Prop :=
  ∀ newer reading between writing older c d op p blobs,
    history = newer ++ .reported d blobs :: reading ++ .began d (.listing p) :: between ++ .acknowledged c :: writing ++
      .wrote c op :: older →
    p ∈ s.prefixes → p.isPrefixOf op.blobID →
    (∀ c' op', .wrote c' op' ∈ reading ++ between ++ writing → op'.blobID ≠ op.blobID) →
    ((∃ blob ∈ blobs, blob.BlobID = op.blobID) ↔ op.isPut)

def World.pending (w : World) (c : Nat) (p : BlobID) : Bool :=
  match w.calls c with
  | some (.invalidating _ rest) => p ∈ rest
  | _ => false

/-- An event is no write to the prefix, or one that is still to invalidate its list. -/
def World.spares (w : World) (p : BlobID) : Event → Bool
  | .wrote c op => !p.isPrefixOf op.blobID || w.pending c p
  | _ => true

def World.keeps (w : World) (d : Nat) : Option Call → Bool
  | some (.listed p _) => (w.history.takeWhile (· ≠ .listed d p)).all (w.spares p)
  | _ => true

/-- A list is saved only while every write to its prefix since it was taken is still to invalidate it. -/
def Undisturbed (w : World) : Label → Prop
  | .advance d => w.keeps d (w.calls d) = true
  | _ => True

instance (w : World) : ∀ l, Decidable (Undisturbed w l)
  | .advance d => inferInstanceAs (Decidable (w.keeps d (w.calls d) = true))
  | .ListBlobs _ | .PutBlob _ | .DeleteBlob _ | .fails _ _ | .passes _ => instDecidableTrue

section Invariant
variable {s} {start w : World}

def Event.call : Event → Nat
  | began c _ | wrote c _ | dropped c _ | acknowledged c | missed c _ | listed c _ | reported c _ | failed c => c

/-- What the storage holds after what has happened to it. -/
def storageAfter (blobs : List Metadata) : List Event → List Metadata
  | [] => blobs
  | .wrote _ op :: older => op.apply (storageAfter blobs older)
  | _ :: older => storageAfter blobs older

def listAfter (blobs : List Metadata) (older : List Event) (p : BlobID) : List Metadata :=
  (storageAfter blobs older).filter fun blob => p.isPrefixOf blob.BlobID

/-- The prefix that a call lists. -/
def Call.target : Call → Option BlobID
  | listing p | missed p | listed p _ => some p
  | writing _ | invalidating _ _ => none

structure Inv (s : ListCacheStorage) (start w : World) : Prop where
  numbered : ∀ e ∈ w.history, e.call < w.next
  unused : ∀ c, w.next ≤ c → w.calls c = none
  ended : ∀ c, .acknowledged c ∈ w.history → w.calls c = none
  stored : w.storage = storageAfter start.storage w.history
  begun : ∀ d call p, w.calls d = some call → call.target = some p → ∀ call', .began d call' ∈ w.history → call' = .listing p
  listed : ∀ c p cl, w.calls c = some (.listed p cl) → ∃ newer older, w.history = newer ++ .listed c p :: older ∧
    cl.Blobs = listAfter start.storage older p ∧ ∀ e ∈ newer, e.call ≠ c
  cached : ∀ p ∈ s.prefixes, ∀ cl, w.cacheStorage p = some cl → ∃ newer older, w.history = newer ++ older ∧
    (older = [] ∨ cl.Blobs = listAfter start.storage older p) ∧
    ∀ c op, .wrote c op ∈ newer → p.isPrefixOf op.blobID → w.pending c p
  reflects : Reflects s w.history

theorem split_at {α : Type} {newer older u v : List α} {e : α} (same : newer ++ older = u ++ e :: v) (absent : e ∉ newer) :
    ∃ u', older = u' ++ e :: v ∧ u = newer ++ u' := by
  rcases List.append_eq_append_iff.mp same with ⟨u',rfl,rest⟩ | ⟨u',rfl,rest⟩
  · exact ⟨u',rest,rfl⟩
  · cases u' with
    | nil => exact ⟨[],rest.symm,by simp⟩
    | cons x u' =>
      obtain ⟨rfl,_⟩ := List.cons.inj rest
      exact absurd (by simp) absent

/-- The last write to a blob decides whether it is stored. -/
theorem stored_after {blobs : List Metadata} {u v : List Event} {c : Nat} {op : Write}
    (last : ∀ c' op', .wrote c' op' ∈ u → op'.blobID ≠ op.blobID) :
    (∃ blob ∈ storageAfter blobs (u ++ .wrote c op :: v), blob.BlobID = op.blobID) ↔ op.isPut := by
  induction u with
  | nil =>
    cases op with
    | put blob => simp [storageAfter,Write.apply,Write.blobID,Write.isPut]
    | delete blobID => simp [storageAfter,Write.apply,Write.blobID,Write.isPut]
  | cons e u ih =>
    have rest := ih fun c' op' member => last c' op' (List.mem_cons_of_mem _ member)
    cases e with
    | wrote c' op' =>
      have other := last c' op' List.mem_cons_self
      rw [← rest]
      cases op' with
      | put blob =>
        change blob.BlobID ≠ op.blobID at other
        simp only [List.cons_append,storageAfter,Write.apply,List.mem_cons,List.mem_filter,decide_eq_true_eq]
        constructor
        · rintro ⟨stored,rfl | ⟨member,_⟩,same⟩
          · exact absurd same other
          · exact ⟨stored,member,same⟩
        · rintro ⟨stored,member,same⟩
          exact ⟨stored,.inr ⟨member,fun equal => other (equal.symm.trans same)⟩,same⟩
      | delete blobID =>
        change blobID ≠ op.blobID at other
        simp only [List.cons_append,storageAfter,Write.apply,List.mem_filter,decide_eq_true_eq]
        constructor
        · rintro ⟨stored,⟨member,_⟩,same⟩
          exact ⟨stored,member,same⟩
        · rintro ⟨stored,member,same⟩
          exact ⟨stored,⟨member,fun equal => other (equal.symm.trans same)⟩,same⟩
    | began | dropped | acknowledged | missed | listed | reported | failed => exact rest

/-- A report of a list that was taken after the acknowledged writes reflects them. -/
theorem Reflects.reported {history newer older : List Event} {d : Nat} {p : BlobID} {blobs held : List Metadata}
    (reflects : Reflects s history) (split : history = newer ++ older)
    (source : older = [] ∨ blobs = listAfter held older p) (only : ∀ call, .began d call ∈ history → call = .listing p)
    (located : ∀ u v c op, history = u ++ .wrote c op :: v → .acknowledged c ∈ u → .began d (.listing p) ∈ u → p.isPrefixOf op.blobID →
      ∃ u', older = u' ++ .wrote c op :: v ∧ u = newer ++ u') :
    Reflects s (.reported d blobs :: history) := by
  intro latest reading between writing before c d' op q blobs' same cached inside unwritten
  cases latest with
  | cons e latest =>
    obtain ⟨rfl,rest⟩ := List.cons.inj same
    exact reflects _ _ _ _ _ _ _ _ _ _ rest cached inside unwritten
  | nil =>
    simp only [List.nil_append,List.append_assoc,List.cons_append,List.cons.injEq,Event.reported.injEq] at same
    obtain ⟨⟨rfl,rfl⟩,whole⟩ := same
    have own : Call.listing q = .listing p := only _ (by simp [whole])
    cases own
    have place : history = (reading ++ .began d (.listing p) :: (between ++ .acknowledged c :: writing)) ++ .wrote c op :: before := by
      simp [whole]
    obtain ⟨u,rfl,front⟩ := located _ _ c op place (by simp) (by simp) inside
    rcases source with none | rfl
    · simp at none
    · have last (c' : Nat) (op' : Write) (member : .wrote c' op' ∈ u) : op'.blobID ≠ op.blobID := by
        have there : .wrote c' op' ∈ reading ++ .began d (.listing p) :: (between ++ .acknowledged c :: writing) := by
          rw [front]
          exact List.mem_append_right _ member
        apply unwritten c' op'
        simpa using there
      have after : (∃ blob ∈ storageAfter held (u ++ .wrote c op :: before), blob.BlobID = op.blobID) ↔ op.isPut :=
        stored_after last
      rw [← after]
      simp only [listAfter,List.mem_filter]
      constructor
      · rintro ⟨blob,⟨member,_⟩,same⟩
        exact ⟨blob,member,same⟩
      · rintro ⟨blob,member,same⟩
        exact ⟨blob,⟨member,by rwa [same]⟩,same⟩

theorem Reflects.other {history : List Event} {e : Event} (reflects : Reflects s history) (silent : ∀ d blobs, e ≠ .reported d blobs) :
    Reflects s (e :: history) := by
  intro latest reading between writing before c d op p blobs same
  cases latest with
  | nil => exact absurd (List.cons.inj same).1 (silent d blobs)
  | cons e latest => exact reflects _ _ _ _ _ _ _ _ _ _ (List.cons.inj same).2

theorem goes_self (w : World) (c : Nat) (next : Option Call) (e : Event) : (w.goes c next e).calls c = next := by
  change Function.update w.calls c next c = next
  rw [Function.update_self]

theorem goes_other (w : World) {c c' : Nat} (next : Option Call) (e : Event) (other : c' ≠ c) : (w.goes c next e).calls c' = w.calls c' := by
  change Function.update w.calls c next c' = w.calls c'
  rw [Function.update_of_ne other]

theorem pending_goes {c c' : Nat} {next : Option Call} {e : Event} {p : BlobID} (other : c' ≠ c) :
    (w.goes c next e).pending c' p = w.pending c' p := by
  rw [World.pending,World.pending,goes_other w next e other]

/-- What a cached list was taken from goes on to be so, if the call that advances does what it still has to. -/
theorem Inv.cached_kept (inv : Inv s start w) {c : Nat} {next : Option Call} {e : Event} {p : BlobID} (known : p ∈ s.prefixes) {cl : CachedList}
    (found : w.cacheStorage p = some cl) {w' : World} (calls : w'.calls = Function.update w.calls c next)
    (kept : w.pending c p → w'.pending c p) (wrote : ∀ c' op, e = .wrote c' op → p.isPrefixOf op.blobID → w'.pending c' p) :
    ∃ newer older, e :: w.history = newer ++ older ∧ (older = [] ∨ cl.Blobs = listAfter start.storage older p) ∧
      ∀ c' op, .wrote c' op ∈ newer → p.isPrefixOf op.blobID → w'.pending c' p := by
  obtain ⟨newer,older,split,source,waiting⟩ := inv.cached p known cl found
  refine ⟨e :: newer,older,by rw [split,List.cons_append],source,?_⟩
  intro c' op member inside
  rcases List.mem_cons.mp member with here | before
  · exact wrote c' op here.symm inside
  · have old := waiting c' op before inside
    by_cases own : c' = c
    · exact own ▸ kept (own ▸ old)
    · rw [World.pending,calls,Function.update_of_ne own]
      exact old

/-- A call that advances keeps the invariant. -/
theorem Inv.goes (inv : Inv s start w) {c : Nat} {call : Call} (running : w.calls c = some call) {next : Option Call} {e : Event}
    {storage : List Metadata} {cacheStorage : BlobID → Option CachedList} (own : e.call = c)
    (begins : ∀ d call', e ≠ .began d call')
    (stored : storage = storageAfter start.storage (e :: w.history))
    (ended : e = .acknowledged c → next = none)
    (target : ∀ call' p, next = some call' → call'.target = some p → call.target = some p)
    (listed : ∀ p cl, next = some (.listed p cl) → e = .listed c p ∧ cl.Blobs = listAfter start.storage w.history p)
    (cached : ∀ p ∈ s.prefixes, ∀ cl, cacheStorage p = some cl → ∃ newer older, e :: w.history = newer ++ older ∧
      (older = [] ∨ cl.Blobs = listAfter start.storage older p) ∧
      ∀ c' op, .wrote c' op ∈ newer → p.isPrefixOf op.blobID → (w.goes c next e).pending c' p)
    (reflects : Reflects s (e :: w.history)) :
    Inv s start ({ w with storage := storage, cacheStorage := cacheStorage }.goes c next e) := by
  have known : c < w.next := by
    by_contra beyond
    rw [inv.unused c (by omega)] at running
    contradiction
  refine ⟨?_,?_,?_,stored,?_,?_,cached,reflects⟩
  · intro e' member
    rcases List.mem_cons.mp member with rfl | before
    · exact own ▸ known
    · exact inv.numbered e' before
  · intro c' beyond
    change w.next ≤ c' at beyond
    have other : c' ≠ c := by omega
    exact (goes_other _ _ _ other).trans (inv.unused c' beyond)
  · intro c' member
    rcases List.mem_cons.mp member with here | before
    · have same : c' = c := by rw [← own,← here]; rfl
      subst same
      exact (goes_self ..).trans (ended here.symm)
    · have other : c' ≠ c := by
        rintro rfl
        rw [inv.ended c' before] at running
        contradiction
      exact (goes_other _ _ _ other).trans (inv.ended c' before)
  · intro d call' p at' aims call'' member
    have before : .began d call'' ∈ w.history := by
      rcases List.mem_cons.mp member with here | before
      · exact absurd here.symm (begins d call'')
      · exact before
    by_cases same : d = c
    · subst same
      have now : next = some call' := (goes_self ..).symm.trans at'
      exact inv.begun d call p running (target call' p now aims) call'' before
    · rw [goes_other _ _ _ same] at at'
      exact inv.begun d call' p at' aims call'' before
  · intro d p cl at'
    by_cases same : d = c
    · subst same
      have now : next = some (.listed p cl) := (goes_self ..).symm.trans at'
      obtain ⟨rfl,taken⟩ := listed p cl now
      exact ⟨[],w.history,rfl,taken,by simp⟩
    · rw [goes_other _ _ _ same] at at'
      obtain ⟨newer,older,split,taken,others⟩ := inv.listed d p cl at'
      refine ⟨e :: newer,older,?_,taken,?_⟩
      · change e :: w.history = _
        rw [split,List.cons_append]
      · intro e' member
        rcases List.mem_cons.mp member with rfl | before
        · exact fun equal => same (equal.symm.trans own)
        · exact others e' before

theorem Inv.begin' (inv : Inv s start w) {call : Call} (begins : (∃ p, call = .listing p) ∨ ∃ op, call = .writing op) :
    Inv s start (w.begin' call) := by
  have old {d : Nat} {call' : Call} (at' : (w.begin' call).calls d = some call') (before : d ≠ w.next) : w.calls d = some call' := by
    rw [← at']
    exact (Function.update_of_ne before ..).symm
  refine ⟨?_,?_,?_,inv.stored,?_,?_,?_,inv.reflects.other (by simp)⟩
  · intro e member
    rcases List.mem_cons.mp member with rfl | before
    · exact Nat.lt_succ_self _
    · exact Nat.lt_succ_of_lt (inv.numbered e before)
  · intro c beyond
    have further : w.next + 1 ≤ c := beyond
    have other : c ≠ w.next := by omega
    exact (Function.update_of_ne other ..).trans (inv.unused c (by omega))
  · intro c member
    rcases List.mem_cons.mp member with here | before
    · contradiction
    · have other : c ≠ w.next := Nat.ne_of_lt (inv.numbered _ before)
      exact (Function.update_of_ne other ..).trans (inv.ended c before)
  · intro d call' p at' aims call'' member
    by_cases same : d = w.next
    · subst same
      obtain rfl : call = call' := Option.some.inj ((Function.update_self (β := fun _ => Option Call) ..).symm.trans at')
      rcases List.mem_cons.mp member with here | before
      · cases here
        rcases begins with ⟨q,rfl⟩ | ⟨op,rfl⟩
        · exact congrArg _ (Option.some.inj aims)
        · contradiction
      · exact absurd (inv.numbered _ before) (lt_irrefl _)
    · rcases List.mem_cons.mp member with here | before
      · cases here
        contradiction
      · exact inv.begun d call' p (old at' same) aims call'' before
  · intro d p cl at'
    by_cases same : d = w.next
    · subst same
      obtain rfl : call = .listed p cl := Option.some.inj ((Function.update_self (β := fun _ => Option Call) ..).symm.trans at')
      rcases begins with ⟨q,begins⟩ | ⟨op,begins⟩ <;> contradiction
    · obtain ⟨newer,older,split,taken,others⟩ := inv.listed d p cl (old at' same)
      refine ⟨.began w.next call :: newer,older,?_,taken,?_⟩
      · change _ :: w.history = _
        rw [split,List.cons_append]
      · intro e member
        rcases List.mem_cons.mp member with rfl | before
        · exact fun equal => same equal.symm
        · exact others e before
  · intro p known cl found
    have unstarted : w.pending w.next p = false := by rw [World.pending,inv.unused _ (le_refl _)]
    exact inv.cached_kept known found rfl (fun waits => absurd waits (by simp [unstarted])) fun c op absurd => nomatch absurd

theorem idle_of_running {c : Nat} {call : Call} (running : w.calls c = some call) (waits : ∀ ok rest, call ≠ .invalidating ok rest)
    (p : BlobID) : w.pending c p = false := by
  rw [World.pending,running]
  cases call with
  | invalidating ok rest => exact absurd rfl (waits ok rest)
  | listing | missed | listed | writing => rfl

/-- A write that was done is pending for every list that it has to invalidate. -/
theorem Inv.wrote (inv : Inv s start w) {c : Nat} {op : Write} (running : w.calls c = some (.writing op)) (ok : Bool) :
    Inv s start ({ w with storage := op.apply w.storage }.goes c
      (some (.invalidating ok (s.prefixes.filter (·.isPrefixOf op.blobID)))) (.wrote c op)) := by
  have idle := idle_of_running running (by simp)
  refine inv.goes running rfl (by simp) ?_ (by simp) ?_ (by simp) ?_ (inv.reflects.other (by simp))
  · rw [storageAfter,inv.stored]
  · rintro call' q next aims
    cases next
    contradiction
  · intro q known cl found
    refine inv.cached_kept known found rfl (fun waits => absurd waits (by simp [idle q])) fun c' op' wrote inside => ?_
    cases wrote
    rw [World.pending,goes_self]
    simp [known,inside]

theorem Inv.advance (inv : Inv s start w) {c : Nat} {call : Call} (running : w.calls c = some call)
    (undisturbed : Undisturbed w (.advance c)) : Inv s start (advance s w c call) := by
  have same (e : Event) (silent : ∀ c op, e ≠ .wrote c op) : w.storage = storageAfter start.storage (e :: w.history) := by
    cases e with
    | wrote c op => exact absurd rfl (silent c op)
    | began | dropped | acknowledged | missed | listed | reported | failed => exact inv.stored
  have idle := idle_of_running running
  cases call with
  | listing p =>
    have only := inv.begun c (.listing p) p running rfl
    have reported {newer older : List Event} {blobs : List Metadata} (split : w.history = newer ++ older)
        (source : older = [] ∨ blobs = listAfter start.storage older p)
        (absent : ∀ c' op, .wrote c' op ∈ newer → p.isPrefixOf op.blobID → w.pending c' p) :
        Inv s start (w.goes c none (.reported c blobs)) := by
      refine inv.goes running rfl (by simp) (same _ (by simp)) (by simp) (by simp) (by simp) ?_ ?_
      · intro q known cl found
        exact inv.cached_kept known found rfl (fun waits => absurd waits (by simp [idle (by simp) q])) (by simp)
      · refine inv.reflects.reported split source only fun u v c' op whole acknowledged began inside => ?_
        refine split_at (split.symm.trans whole) fun member => ?_
        have waits := absent c' op member inside
        rw [World.pending,inv.ended c' (by simp [whole,acknowledged])] at waits
        contradiction
    rw [Caching.advance]
    split
    next known =>
      split
      next cached found =>
        rw [World.readBlobsFromCache] at found
        split at found
        next cl there =>
          split at found
          · cases found
            obtain ⟨newer,older,split,source,absent⟩ := inv.cached p known cached there
            exact reported split source absent
          · contradiction
        next => contradiction
      next =>
        refine inv.goes running rfl (by simp) (same _ (by simp)) (by simp) ?_ (by simp) ?_ (inv.reflects.other (by simp))
        · rintro call' q next aims
          cases next
          exact aims
        · intro q known cl found
          exact inv.cached_kept known found rfl (fun waits => absurd waits (by simp [idle (by simp) q])) (by simp)
    next => exact reported (List.nil_append _).symm (.inr (by rw [World.listBlobs,inv.stored,listAfter])) (by simp)
  | missed p =>
    refine inv.goes running rfl (by simp) (same _ (by simp)) (by simp) ?_ ?_ ?_ (inv.reflects.other (by simp))
    · rintro call' q next aims
      cases next
      exact aims
    · intro q cl next
      cases next
      exact ⟨rfl,by rw [World.listBlobs,inv.stored,listAfter]⟩
    · intro q known cl found
      exact inv.cached_kept known found rfl (fun waits => absurd waits (by simp [idle (by simp) q])) (by simp)
  | listed p cl =>
    obtain ⟨newer,older,split,taken,others⟩ := inv.listed c p cl running
    refine inv.goes running rfl (by simp) (same _ (by simp)) (by simp) (by simp) (by simp) ?_ ?_
    · intro q known cl' found
      by_cases here : q = p
      · subst here
        cases (Function.update_self (β := fun _ => Option CachedList) ..).symm.trans found
        refine ⟨.reported c cl.Blobs :: newer ++ [.listed c q],older,by simp [split],.inr taken,?_⟩
        intro c' op member inside
        have there : .wrote c' op ∈ newer := by simpa using member
        have other : c' ≠ c := others _ there
        rw [pending_goes other]
        have latest : w.history.takeWhile (· ≠ .listed c q) = newer := by
          rw [split,List.takeWhile_append_of_pos]
          · simp
          · intro e member
            have differs : e ≠ .listed c q := fun same => others e member (same ▸ rfl)
            simpa using differs
        rw [Undisturbed,running,World.keeps,latest] at undisturbed
        simpa [World.spares,inside] using List.all_eq_true.mp undisturbed _ there
      · have before : w.cacheStorage q = some cl' := (Function.update_of_ne here ..).symm.trans found
        exact inv.cached_kept known before rfl (fun waits => absurd waits (by simp [idle (by simp) q])) (by simp)
    · have only := inv.begun c _ p running rfl
      have joined : w.history = (newer ++ [.listed c p]) ++ older := by simp [split]
      refine inv.reflects.reported joined (.inr taken) only ?_
      intro u v c' op whole _ began _
      obtain ⟨u1,u2,rfl⟩ := List.append_of_mem began
      have absent : .began c (.listing p) ∉ newer ++ [.listed c p] := by
        intro member
        rcases List.mem_append.mp member with there | there
        · exact others _ there rfl
        · simp at there
      have both : (newer ++ [.listed c p]) ++ older = u1 ++ .began c (.listing p) :: (u2 ++ .wrote c' op :: v) := by
        simpa [split] using whole
      obtain ⟨u',rfl,rfl⟩ := split_at both absent
      exact ⟨u' ++ .began c (.listing p) :: u2,by simp,by simp⟩
  | writing op => exact inv.wrote running true
  | invalidating ok rest =>
    cases rest with
    | nil =>
      have done (q : BlobID) : w.pending c q = false := by simp [World.pending,running]
      have silent : ∀ d blobs, (if ok then Event.acknowledged c else .failed c) ≠ .reported d blobs := by cases ok <;> simp
      have quiet : ∀ d op, (if ok then Event.acknowledged c else .failed c) ≠ .wrote d op := by cases ok <;> simp
      refine inv.goes running (by cases ok <;> rfl) (by cases ok <;> simp) (same _ quiet) (by simp) (by simp) (by simp) ?_
        (inv.reflects.other silent)
      intro q known cl found
      exact inv.cached_kept known found rfl (fun waits => absurd waits (by simp [done q])) fun c' op wrote => absurd wrote (quiet c' op)
    | cons p rest =>
      refine inv.goes running rfl (by simp) (same _ (by simp)) (by simp) ?_ (by simp) ?_ (inv.reflects.other (by simp))
      · rintro call' q next aims
        cases next
        contradiction
      · intro q known cl found
        by_cases here : q = p
        · subst here
          cases (Function.update_self (β := fun _ => Option CachedList) ..).symm.trans found
        · have before : w.cacheStorage q = some cl := (Function.update_of_ne here ..).symm.trans found
          refine inv.cached_kept known before rfl (fun waits => ?_) (by simp)
          rw [World.pending,goes_self]
          simpa [World.pending,running,here] using waits

/-- A call that fails without any effect is over, or goes on to invalidate lists. -/
theorem Inv.failed (inv : Inv s start w) {c : Nat} {call : Call} (running : w.calls c = some call)
    (waits : ∀ ok rest, call ≠ .invalidating ok rest) {next : Option Call} (untargeted : ∀ call' p, next = some call' → call'.target ≠ some p) :
    Inv s start (w.goes c next (.failed c)) := by
  have idle := idle_of_running running waits
  refine inv.goes running rfl (by simp) inv.stored (by simp) ?_ ?_ ?_ (inv.reflects.other (by simp))
  · intro call' p next aims
    exact absurd aims (untargeted call' p next)
  · intro p cl next
    exact absurd rfl (untargeted (.listed p cl) p next)
  · intro q known cl found
    exact inv.cached_kept known found rfl (fun waits => absurd waits (by simp [idle q])) (by simp)

theorem Inv.fails (inv : Inv s start w) {c : Nat} {done : Bool} {call : Call} {w' : World} (running : w.calls c = some call)
    (failed : fails s w c done call = some w') : Inv s start w' := by
  cases call with
  | listing p =>
    rw [Caching.fails] at failed
    split at failed
    · contradiction
    · cases failed
      exact inv.failed running (by simp) (by simp)
  | missed p =>
    cases failed
    exact inv.failed running (by simp) (by simp)
  | listed p cl => contradiction
  | invalidating ok rest => contradiction
  | writing op =>
    rw [Caching.fails] at failed
    split at failed
    · cases failed
      exact inv.wrote running false
    · cases failed
      refine inv.failed running (by simp) ?_
      rintro call' p next
      cases next
      simp [Call.target]

theorem Inv.fresh (fresh : start.Fresh) : Inv s start start := by
  obtain ⟨idle,quiet⟩ := fresh
  refine ⟨by simp [quiet],fun c _ => idle c,fun c _ => idle c,by rw [quiet,storageAfter],by simp [idle],by simp [idle],?_,?_⟩
  · intro p known cl found
    exact ⟨[],[],by rw [quiet,List.nil_append],.inl rfl,by simp⟩
  · intro newer reading between writing older c d op p blobs history
    rw [quiet] at history
    simp at history

theorem Inv.step (l : Label) (w' : World) (inv : Inv s start w) (undisturbed : Undisturbed w l) (taken : step s w l = some w') :
    Inv s start w' := by
  cases l with
  | ListBlobs p =>
    cases taken
    exact inv.begin' (.inl ⟨p,rfl⟩)
  | PutBlob blob =>
    cases taken
    exact inv.begin' (.inr ⟨.put blob,rfl⟩)
  | DeleteBlob blobID =>
    cases taken
    exact inv.begin' (.inr ⟨.delete blobID,rfl⟩)
  | advance c =>
    obtain ⟨call,running,rfl⟩ := Option.map_eq_some_iff.mp taken
    exact inv.advance running undisturbed
  | fails c done =>
    obtain ⟨call,running,failed⟩ := Option.bind_eq_some_iff.mp taken
    exact inv.fails running failed
  | passes time =>
    cases taken
    exact ⟨inv.numbered,inv.unused,inv.ended,inv.stored,inv.begun,inv.listed,inv.cached,inv.reflects⟩

end Invariant

/-- Lists reflect the writes that were acknowledged before they began, in every run that saves no list late. -/
theorem lists_reflect_writes (s : ListCacheStorage) (start w : World) (labels : List Label) (fresh : start.Fresh)
    (undisturbed : Meets (step s) Undisturbed start labels) (reached : run (step s) start labels = some w) :
    Reflects s w.history :=
  (invariant (fun _ l w' inv clean taken => Inv.step l w' inv clean taken) (Inv.fresh fresh) undisturbed reached).reflects

section Examples

/-- One cached prefix, 'x'. -/
def cachesX : ListCacheStorage := ⟨[[120]],30⟩

def emptyWorld : World := ⟨[],fun _ => none,0,fun _ => none,0,[]⟩

theorem emptyWorld_fresh : emptyWorld.Fresh := ⟨fun _ => rfl,rfl⟩

/-- A list after a put, and one more that is served from the cache. -/
def sequential : List Label :=
  [.PutBlob ⟨[120,49],1,0⟩,.advance 0,.advance 0,.advance 0,.ListBlobs [120],.advance 1,.advance 1,.advance 1,.ListBlobs [120],.advance 2]

theorem lists_reflect_writes_sequential : ∃ w, run (step cachesX) emptyWorld sequential = some w ∧ Reflects cachesX w.history := by
  refine ⟨_,rfl,lists_reflect_writes cachesX emptyWorld _ sequential emptyWorld_fresh (by decide +kernel) rfl⟩

/-- A list that was taken before a put is saved after it. -/
def overtaken : List Label :=
  [.ListBlobs [120],.advance 0,.advance 0,.PutBlob ⟨[120,49],1,0⟩,.advance 1,.advance 1,.advance 1,.advance 0,.ListBlobs [120],.advance 2]

theorem overtaken_list_lacks_put : ¬ ∀ (s : ListCacheStorage) (start w : World) (labels : List Label), start.Fresh →
    run (step s) start labels = some w → Reflects s w.history := by
  intro claim
  have reflects := claim cachesX emptyWorld _ overtaken emptyWorld_fresh rfl
  have stale := reflects [] [] [.reported 0 []] [.dropped 1 [120]] [.began 1 (.writing (.put ⟨[120,49],1,0⟩)),.listed 0 [120],
    .missed 0 [120],.began 0 (.listing [120])] 1 2 (.put ⟨[120,49],1,0⟩) [120] [] rfl (by decide) (by decide) (by simp)
  exact absurd (stale.mpr rfl) (by simp)

end Examples

end Vbe.Caching
