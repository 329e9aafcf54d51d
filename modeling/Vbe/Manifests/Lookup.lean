import Vbe.Manifests.Manager

/-! What is found by labels beside what is found by identifiers. -/
namespace Vbe.Manifests
open Vbe.Index (Bytes)
open Vbe.Library Vbe.Library.Listings Vbe.Library.Runs

section Preservation

/-- A condition holds of all entries that are committed as far as the manager knows. -/
def committedManifestManager.All (p : manifestEntry → Prop) (m : committedManifestManager) : Prop := ∀ e ∈ m.committedEntries.values, p e

namespace committedManifestManager
variable {p : manifestEntry → Prop} {m : committedManifestManager}

theorem writeEntriesLocked_all (all : m.All p) {entries : Entries} (new : ∀ e ∈ entries.values, p e) :
    (m.writeEntriesLocked entries).Always fun r => r.1.All p ∧ r.1.lastRevision = m.lastRevision := by
  unfold writeEntriesLocked
  split
  next => exact ⟨all,rfl⟩
  next =>
    intro reply
    cases reply with
    | written contentID =>
      refine ⟨fun e member => ?_,rfl⟩
      rcases Keyed.mem_setAll member with old | added
      · exact all e old
      · exact new e added
    | _ => exact ⟨all,rfl⟩

theorem deleteContents_all (written : Option Index.ID) (contentIDs : List Index.ID) (all : m.All p) :
    (deleteContents written contentIDs m).Always fun r => r.1.All p ∧ r.1.lastRevision = m.lastRevision := by
  induction contentIDs generalizing m with
  | nil => exact ⟨all,rfl⟩
  | cons b rest ih =>
    unfold deleteContents
    split
    next => exact ih all
    next =>
      intro reply
      cases reply with
      | done => exact ih (m := { m with committedContentIDs := m.committedContentIDs.erase b }) all
      | _ => exact ⟨all,rfl⟩

theorem compactLocked_all (all : m.All p) : m.compactLocked.Always fun r => r.1.All p ∧ r.1.lastRevision = m.lastRevision := by
  unfold compactLocked
  split
  next => exact ⟨all,rfl⟩
  next =>
    intro reply
    apply (writeEntriesLocked_all all all).bind
    rintro ⟨m',written⟩ ⟨all',same⟩
    cases written with
    | error e => exact fun _ => ⟨all',same⟩
    | ok written => exact (deleteContents_all written _ all').bind fun r kept _ => ⟨kept.1,kept.2.trans same⟩

theorem maybeCompactLocked_all (all : m.All p) :
    m.maybeCompactLocked.Always fun r => r.1.All p ∧ r.1.lastRevision = m.lastRevision := by
  unfold maybeCompactLocked
  rintro (_ | _ | _ | _ | _ | _)
  case readOnly b =>
    cases b with
    | true => exact ⟨all,rfl⟩
    | false =>
      dsimp only
      split
      next => exact ⟨all,rfl⟩
      next =>
        apply (compactLocked_all all).bind
        rintro ⟨m',compacted⟩ kept
        cases compacted with
        | error e => exact kept
        | ok done =>
          intro reply
          cases reply <;> exact kept
  all_goals exact ⟨all,rfl⟩

/-- What has been loaded is no deletion. -/
theorem loadManifestContentsLocked_live (m : committedManifestManager) (manifests : List (Index.ID × List manifestEntry)) :
    (m.loadManifestContentsLocked manifests).All fun e => e.Deleted = false := by
  intro e member
  simpa using (List.mem_filter.mp member).2

/-- Only another revision changes what is known, to entries that are no deletions. -/
theorem ensureInitializedLocked_spec (m : committedManifestManager) : ∃ next, m.ensureInitializedLocked = .ask .Revision next ∧
    (∀ reply, (next reply).Always fun r => r.1 = m ∨ r.1.All fun e => e.Deleted = false) ∧
    ∀ rev, (next (.revision rev)).Always fun r => r.2 = .ok () → r.1.lastRevision = rev ∧
      if m.lastRevision = rev then r.1 = m else r.1.All fun e => e.Deleted = false := by
  have loads : m.loadCommittedContentsLocked.Always fun r => (r.1 = m ∧ r.2 ≠ .ok ()) ∨ r.1.All fun e => e.Deleted = false := by
    rintro (_ | _ | _ | _ | _ | _)
    case loaded manifests =>
      exact (maybeCompactLocked_all (loadManifestContentsLocked_live m manifests)).mono fun r kept => .inr kept.1
    all_goals exact .inl ⟨rfl,nofun⟩
  refine ⟨_,rfl,?_,?_⟩
  · rintro (rev | _ | _ | _ | _ | _)
    case revision =>
      dsimp only
      split
      next => exact .inl rfl
      next =>
        apply loads.bind
        rintro ⟨m',loaded⟩ kept
        cases loaded with
        | error e => exact kept.imp And.left id
        | ok done => exact .inr (kept.resolve_left fun unchanged => unchanged.2 rfl)
    all_goals exact .inl rfl
  · intro rev
    dsimp only
    split
    next same => exact fun _ => ⟨same,rfl⟩
    next =>
      apply loads.bind
      rintro ⟨m',loaded⟩ kept
      cases loaded with
      | error e => exact nofun
      | ok done => exact fun _ => ⟨rfl,kept.resolve_left fun unchanged => unchanged.2 rfl⟩

end committedManifestManager

/-- A deletion has no labels. -/
def Bare (e : manifestEntry) : Prop := e.Deleted = true → e.Labels.values = []

/-- Deletions, pending or committed, have no labels. -/
structure Manager.Inv (m : Manager) : Prop where
  pending : ∀ e ∈ m.pendingEntries.values, Bare e
  committed : m.committed.All Bare

namespace Manager
variable {m m' : Manager}

theorem Inv.ensured (inv : m.Inv) : m.committed.ensureInitializedLocked.Always fun r => Inv { m with committed := r.1 } := by
  obtain ⟨next,same,kept,_⟩ := m.committed.ensureInitializedLocked_spec
  rw [same]
  intro reply
  apply (kept reply).mono
  rintro r (unchanged | live)
  · exact ⟨inv.pending,unchanged ▸ inv.committed⟩
  · exact ⟨inv.pending,fun e member deleted => by simp [live e member] at deleted⟩

theorem Always.replied {α : Type} {p : Call α} {post : α → Prop} (always : p.Always post) {replies : List Reply} {a : α}
    (ended : Replied p replies = some a) : post a := by
  unfold Replied at ended
  split at ended
  next b result =>
    cases ended
    exact always.steps result
  next => contradiction

theorem Inv.set (inv : m.Inv) {e : manifestEntry} (bare : Bare e) : Inv { m with pendingEntries := m.pendingEntries.set e } := by
  refine ⟨fun e' member => ?_,inv.committed⟩
  rcases Keyed.mem_set member with old | rfl
  · exact inv.pending e' old
  · exact bare

theorem Inv.Put (inv : m.Inv) (labels : Labels) (random : Option String) (payload : Option Bytes) (now : Time) :
    (m.Put labels random payload now).1.Inv := by
  unfold Manager.Put
  split
  next => exact inv
  next =>
    split
    next => exact inv
    next =>
      split
      next => exact inv
      next ID =>
        split
        next => exact inv
        next b => exact inv.set (e := ⟨ID,labels,now,false,b⟩) nofun

theorem Inv.getPendingOrCommitted (inv : m.Inv) (id : String) : (m.getPendingOrCommitted id).Always fun r => r.1.Inv := by
  unfold Manager.getPendingOrCommitted
  split
  next => exact inv
  next =>
    apply inv.ensured.bind
    rintro ⟨committed,result⟩ inv'
    cases result <;> exact inv'

theorem Inv.GetMetadata (inv : m.Inv) (id : String) : (m.GetMetadata id).Always fun r => r.1.Inv := by
  apply (inv.getPendingOrCommitted id).bind
  rintro ⟨m',e⟩ inv'
  exact inv'

theorem Inv.Find (inv : m.Inv) (labels : Labels) : (m.Find labels).Always fun r => r.1.Inv := by
  apply inv.ensured.bind
  rintro ⟨committed,result⟩ inv'
  cases result <;> exact inv'

theorem Inv.Delete (inv : m.Inv) (id : String) (now : Time) : (m.Delete id now).Always fun r => r.1.Inv := by
  apply inv.ensured.bind
  rintro ⟨committed,result⟩ inv'
  cases result with
  | error e => exact inv'
  | ok done =>
    dsimp only
    split
    next => exact inv'
    next => exact inv'.set (e := ⟨id,.empty,now,true,[]⟩) fun _ => rfl

theorem Inv.Flush (inv : m.Inv) : m.Flush.Always fun r => r.1.Inv := by
  apply (m.committed.writeEntriesLocked_all inv.committed inv.pending).bind
  rintro ⟨committed,result⟩ kept
  cases result with
  | error e => exact ⟨inv.pending,kept.1⟩
  | ok contentID => exact ⟨nofun,kept.1⟩

theorem Inv.Compact (inv : m.Inv) : m.Compact.Always fun r => r.1.Inv := by
  apply (committedManifestManager.compactLocked_all inv.committed).bind
  rintro ⟨committed,result⟩ kept
  exact ⟨inv.pending,kept.1⟩

theorem Inv.step (inv : m.Inv) {l : Label} (taken : m.step l = some m') : m'.Inv := by
  cases l with
  | Put labels random payload now =>
    cases taken
    exact inv.Put labels random payload now
  | GetMetadata id replies =>
    obtain ⟨r,ended,rfl⟩ := Option.map_eq_some_iff.mp taken
    exact Always.replied (inv.GetMetadata id) ended
  | Find labels replies =>
    obtain ⟨r,ended,rfl⟩ := Option.map_eq_some_iff.mp taken
    exact Always.replied (inv.Find labels) ended
  | Delete id now replies =>
    obtain ⟨r,ended,rfl⟩ := Option.map_eq_some_iff.mp taken
    exact Always.replied (inv.Delete id now) ended
  | Flush replies =>
    obtain ⟨r,ended,rfl⟩ := Option.map_eq_some_iff.mp taken
    exact Always.replied inv.Flush ended
  | Compact replies =>
    obtain ⟨r,ended,rfl⟩ := Option.map_eq_some_iff.mp taken
    exact Always.replied inv.Compact ended

theorem reached_inv {threshold : Nat} {calls : List Label} (reached : run Manager.step (NewManager threshold) calls = some m) : m.Inv :=
  invariant (fun _ _ _ inv _ taken => inv.step taken)
    ⟨fun _ member => absurd member List.not_mem_nil,fun _ member => absurd member List.not_mem_nil⟩ (meets_true _ _) reached

end Manager

end Preservation

section Lookup
variable {α : Type} {m m' : Manager}

namespace Manager

/-- What is pending under an identifier, and else what is committed. -/
def entry (m : Manager) (id : String) : Option manifestEntry :=
  (m.pendingEntries.get? id).or (m.committed.committedEntries.get? id)

theorem entry_ID {id : String} {e : manifestEntry} (found : m.entry id = some e) : e.ID = id := by
  rcases Option.or_eq_some_iff.mp found with pending | ⟨_,committed⟩
  · exact Keyed.get?_key pending
  · exact Keyed.get?_key committed

/-- What is got while the contents have not changed. -/
def Got (m : Manager) (unmarshal : Bytes → Option α) (id : String) : Option (Except Error (α × EntryMetadata)) :=
  (Replied (m.Get unmarshal id) [.revision m.committed.lastRevision]).map Prod.snd

theorem Got_eq (m : Manager) (unmarshal : Bytes → Option α) (id : String) : m.Got unmarshal id =
    some (match foundOrDeleted (m.entry id) with
      | .error e => .error e
      | .ok e => match unmarshal e.Content with
        | none => .error .unmarshal
        | some a => .ok (a,cloneEntryMetadata e)) := by
  unfold Got Get getPendingOrCommitted entry
  cases pending : m.pendingEntries.get? id with
  | some e => rfl
  | none =>
    unfold committedManifestManager.ensureInitializedLocked
    change (Replied (Query.bind (Query.bind (if m.committed.lastRevision = m.committed.lastRevision then _ else _) _) _) []).map Prod.snd = _
    rw [if_pos rfl]
    rfl

theorem entry_of_got {unmarshal : Bytes → Option α} {id : String} {a : α} {md : EntryMetadata}
    (got : m.Got unmarshal id = some (.ok (a,md))) : ∃ e, m.entry id = some e ∧ md = cloneEntryMetadata e := by
  rw [Got_eq] at got
  cases there : m.entry id with
  | none => simp [there,foundOrDeleted] at got
  | some e =>
    cases deleted : e.Deleted with
    | true => simp [there,foundOrDeleted,deleted] at got
    | false =>
      cases value : unmarshal e.Content with
      | none => simp [there,foundOrDeleted,deleted,value] at got
      | some b =>
        have same : b = a ∧ cloneEntryMetadata e = md := by simpa [there,foundOrDeleted,deleted,value] using got
        exact ⟨e,rfl,same.2.symm⟩

/-- A search that succeeds lists the entries that match. -/
theorem Find_lists {labels : Labels} {replies : List Reply} {found : List EntryMetadata}
    (ended : Replied (m.Find labels) replies = some (m',.ok found)) :
    Lists EntryMetadata.ID (fun id => ((m'.entry id).filter fun e => matchesLabels e.Labels labels).map cloneEntryMetadata) found := by
  have always : (m.Find labels).Always fun r => ∀ found, r.2 = .ok found → Lists EntryMetadata.ID
      (fun id => ((r.1.entry id).filter fun e => matchesLabels e.Labels labels).map cloneEntryMetadata) found := by
    apply (Query.Always.trivial m.committed.ensureInitializedLocked).bind
    rintro ⟨committed,result⟩ _
    cases result with
    | error e => exact nofun
    | ok done =>
      intro found same
      cases same
      have pending := (findEntriesMatchingLabels m.pendingEntries labels).lists
      have merged := pending.append committed.committedEntries.lists (fun e => matchesLabels e.Labels labels)
        fun id => Keyed.get?_filter _ id
      have clones : Lists EntryMetadata.ID _ (_ : List _) := merged.map (f := cloneEntryMetadata) fun e => rfl
      rw [List.map_append] at clones
      exact clones.of_perm (List.mergeSort_perm _ _)
  exact Always.replied always ended found rfl

/-- A search that succeeds leaves what is pending, and what is committed where the revision has not changed. -/
theorem Find_refreshes {labels : Labels} {rev : Int} {rest : List Reply} {found : List EntryMetadata}
    (ended : Replied (m.Find labels) (.revision rev :: rest) = some (m',.ok found)) :
    m'.pendingEntries = m.pendingEntries ∧
      if m.committed.lastRevision = rev then m'.committed = m.committed else m'.committed.All fun e => e.Deleted = false := by
  obtain ⟨next,same,_,kept⟩ := m.committed.ensureInitializedLocked_spec
  unfold Manager.Find at ended
  rw [same] at ended
  have ended : Replied (next (.revision rev) >>= _) rest = _ := ended
  refine @Always.replied _ _ (fun r => ∀ found, r.2 = .ok found → r.1.pendingEntries = m.pendingEntries ∧
    if m.committed.lastRevision = rev then r.1.committed = m.committed else r.1.committed.All fun e => e.Deleted = false)
    ((kept rev).bind ?_) _ _ ended found rfl
  rintro ⟨committed,result⟩ ensured
  cases result with
  | error e => exact nofun
  | ok done => exact fun _ _ => ⟨rfl,(ensured rfl).2⟩

/-- What is found has one entry for each identifier whose `Get` succeeds with labels that match, with the metadata that `Get`
returns, and no identifier that `Get` does not find. -/
structure Consistent (unmarshal : Bytes → Option α) (m : Manager) (labels : Labels) (found : List EntryMetadata) : Prop where
  once : (found.map EntryMetadata.ID).Nodup
  matching : ∀ md ∈ found, matchesLabels md.Labels labels = true
  complete : ∀ id a md, m.Got unmarshal id = some (.ok (a,md)) → matchesLabels md.Labels labels = true → md.ID = id ∧ md ∈ found
  same : ∀ md ∈ found, ∀ a md', m.Got unmarshal md.ID = some (.ok (a,md')) → md' = md
  present : ∀ md ∈ found, m.Got unmarshal md.ID ≠ some (.error .notFound)

/-- Whether a deletion is among what is searched: pending, or committed and not reloaded, with nothing pending over it. -/
def SearchesDeletion (m : Manager) (rev : Int) : Prop :=
  (∃ e ∈ m.pendingEntries.values, e.Deleted = true) ∨
    m.committed.lastRevision = rev ∧
      ∃ e ∈ m.committed.committedEntries.values, e.Deleted = true ∧ m.pendingEntries.get? e.ID = none

theorem searchesDeletion_iff {rev : Int} (pending : m'.pendingEntries = m.pendingEntries)
    (committed : if m.committed.lastRevision = rev then m'.committed = m.committed else m'.committed.All fun e => e.Deleted = false) :
    m.SearchesDeletion rev ↔ ∃ id e, m'.entry id = some e ∧ e.Deleted = true := by
  constructor
  · rintro (⟨e,member,deleted⟩ | ⟨current,e,member,deleted,visible⟩)
    · exact ⟨e.ID,e,by rw [entry,pending,Keyed.mem_values.mp member]; rfl,deleted⟩
    · rw [if_pos current] at committed
      exact ⟨e.ID,e,by rw [entry,pending,committed,visible,Keyed.mem_values.mp member]; rfl,deleted⟩
  · rintro ⟨id,e,found,deleted⟩
    obtain rfl := entry_ID found
    rw [entry,pending] at found
    rcases Option.or_eq_some_iff.mp found with first | ⟨visible,second⟩
    · exact .inl ⟨e,Keyed.mem_values.mpr first,deleted⟩
    · split at committed
      next current => exact .inr ⟨current,e,committed ▸ Keyed.mem_values.mpr second,deleted,visible⟩
      next => simp [committed e (Keyed.mem_values.mpr second)] at deleted

end Manager

theorem matchesLabels_empty {a b : Labels} (empty : a.values = []) : matchesLabels a b = true ↔ b.values = [] := by
  have none (k : String) : a.get? k = none := by rw [Keyed.get?,empty]; rfl
  rw [matchesLabels,List.all_eq_true,List.eq_nil_iff_forall_not_mem]
  simp [none]

theorem matchesLabels_nil {a b : Labels} (empty : b.values = []) : matchesLabels a b = true := by
  rw [matchesLabels,empty]
  rfl

/-- Where a manager searches, what it finds by labels is what it has by identifiers, unless it searches for no labels and has
deletions that are not flushed, or are flushed and not loaded again. -/
theorem Find_consistent_iff (unmarshal : Bytes → Option α) {threshold : Nat} {calls : List Label}
    (reached : run Manager.step (NewManager threshold) calls = some m) {labels : Labels} {rev : Int} {rest : List Reply}
    {found : List EntryMetadata} (ended : Replied (m.Find labels) (.revision rev :: rest) = some (m',.ok found)) :
    m'.Consistent unmarshal labels found ↔ labels.values ≠ [] ∨ ¬ m.SearchesDeletion rev := by
  have lists := Manager.Find_lists ended
  obtain ⟨pending,committed⟩ := Manager.Find_refreshes ended
  have inv : m'.Inv := (Manager.reached_inv reached).step (l := .Find labels (.revision rev :: rest)) (by rw [Manager.step,ended]; rfl)
  rw [Manager.searchesDeletion_iff pending committed]
  constructor
  · rintro consistent
    by_contra both
    push Not at both
    obtain ⟨unlabelled,id,e,there,deleted⟩ := both
    obtain rfl := Manager.entry_ID there
    have listed : cloneEntryMetadata e ∈ found := (lists.mem _).mpr (by simp [cloneEntryMetadata,there,matchesLabels_nil unlabelled])
    apply consistent.present _ listed
    rw [Manager.Got_eq]
    simp [cloneEntryMetadata,there,Manager.foundOrDeleted,deleted]
  · intro cond
    have live (id : String) (e : manifestEntry) (there : m'.entry id = some e) (matching : matchesLabels e.Labels labels = true) :
        e.Deleted = false := by
      rw [← Bool.not_eq_true]
      intro deleted
      rcases cond with labelled | none
      · have bare : e.Labels.values = [] := by
          rcases Option.or_eq_some_iff.mp there with first | ⟨_,second⟩
          · exact inv.pending e (Keyed.mem_values.mpr (Keyed.get?_key first ▸ first)) deleted
          · exact inv.committed e (Keyed.mem_values.mpr (Keyed.get?_key second ▸ second)) deleted
        exact labelled ((matchesLabels_empty bare).mp matching)
      · exact none ⟨id,e,there,deleted⟩
    have listed (md : EntryMetadata) : md ∈ found ↔
        ∃ e, m'.entry md.ID = some e ∧ matchesLabels e.Labels labels = true ∧ cloneEntryMetadata e = md := by
      simp [lists.mem,Option.filter_eq_some_iff,and_assoc]
    refine ⟨lists.nodup,?_,?_,?_,?_⟩
    · intro md member
      obtain ⟨e,_,matching,rfl⟩ := (listed md).mp member
      exact matching
    · intro id a md got matching
      obtain ⟨e,there,rfl⟩ := Manager.entry_of_got got
      obtain rfl := Manager.entry_ID there
      exact ⟨rfl,(listed _).mpr ⟨e,there,matching,rfl⟩⟩
    · intro md member a md' got
      obtain ⟨e,there,_,same⟩ := (listed md).mp member
      obtain ⟨e',there',rfl⟩ := Manager.entry_of_got got
      obtain rfl : e = e' := Option.some.inj (there.symm.trans there')
      exact same
    · intro md member
      obtain ⟨e,there,matching,_⟩ := (listed md).mp member
      rw [Manager.Got_eq,there,Manager.foundOrDeleted]
      cases value : unmarshal e.Content <;> simp [live _ e there matching,value]

end Lookup

section Examples

def snapshotLabels : Labels := Keyed.empty.set (TypeLabelKey,"snapshot")

def putSnapshot : Label := .Put snapshotLabels (some "1a") (some [7]) 10

def withSnapshot : Manager := ((NewManager 0).Put snapshotLabels (some "1a") (some [7]) 10).1

def withDeletion : Manager := { withSnapshot with pendingEntries := withSnapshot.pendingEntries.set ⟨"1a",.empty,20,true,[]⟩ }

theorem Find_withSnapshot : Replied (withSnapshot.Find .empty) [.revision 0] = some (withSnapshot,.ok [⟨"1a",1,snapshotLabels,10⟩]) := by
  change some (withSnapshot,Except.ok (List.mergeSort [_] _)) = _
  rw [List.mergeSort_singleton]
  rfl

theorem Find_withDeletion : Replied (withDeletion.Find .empty) [.revision 0] = some (withDeletion,.ok [⟨"1a",0,.empty,20⟩]) := by
  change some (withDeletion,Except.ok (List.mergeSort [_] _)) = _
  rw [List.mergeSort_singleton]
  rfl

theorem Find_consistent_put : withSnapshot.Consistent some .empty [⟨"1a",1,snapshotLabels,10⟩] ↔
    (Keyed.empty : Labels).values ≠ [] ∨ ¬ withSnapshot.SearchesDeletion 0 :=
  @Find_consistent_iff _ withSnapshot withSnapshot some 0 [putSnapshot] rfl .empty 0 [] _ Find_withSnapshot

/-- A manifest that has been put and deleted is still found, and cannot be got. -/
theorem Find_lists_deleted : ∃ m m' md,
    run Manager.step (NewManager 0) [putSnapshot,.Delete "1a" 20 [.revision 0]] = some m ∧
    Replied (m.Find .empty) [.revision 0] = some (m',.ok [md]) ∧ m'.Got some md.ID = some (.error .notFound) :=
  ⟨withDeletion,withDeletion,_,rfl,Find_withDeletion,rfl⟩

end Examples

end Vbe.Manifests
