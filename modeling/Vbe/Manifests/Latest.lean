import Mathlib.Data.List.Induction
import Mathlib.Data.List.Pairwise
import Mathlib.Data.Prod.Lex
import Mathlib.Data.String.Basic
import Vbe.Library.Sorting
import Vbe.Manifests.Manager

/-! The latest of some manifests, and the latest one for each value of a label. The comparison is no order: of two entries each
can be later than the other. -/
namespace Vbe.Manifests
open Vbe.Library

section Selection

/-- Nothing is later than what has not been picked yet. -/
def isLaterThan : (a b : Option EntryMetadata) → Bool
  | _, none => true
  | none, some _ => false
  | some a, some b => if a.ModTime > b.ModTime then true else a.ID > b.ID

def latestOf (entries : List EntryMetadata) : Option EntryMetadata :=
  entries.foldl (fun latest e => if isLaterThan (some e) latest then some e else latest) none

def PickLatestID (entries : List EntryMetadata) : String :=
  match latestOf entries with
  | none => ""
  | some latest => latest.ID

/-- A label that an entry does not have reads as empty. -/
def labelValue (label : String) (e : EntryMetadata) : String :=
  match e.Labels.get? label with
  | none => ""
  | some l => l.2

def metadataLess (l r : EntryMetadata) : Bool := if l.ModTime ≠ r.ModTime then l.ModTime < r.ModTime else l.ID < r.ID

def latestByLabel (entries : List EntryMetadata) (label : String) : Keyed (labelValue label) :=
  entries.foldl (fun m e => if isLaterThan (some e) (m.get? (labelValue label e)) then m.set e else m) .empty

/-- `visit` is the order in which the loop visits the map. -/
def DedupeEntryMetadataByLabel (sorting : Sorting) (visit : List EntryMetadata → List EntryMetadata) (entries : List EntryMetadata)
    (label : String) : List EntryMetadata :=
  sorting.sort metadataLess (visit (latestByLabel entries label).values)

end Selection

section Picks
variable {entries l : List EntryMetadata} {e e' m : EntryMetadata} {label : String}

/-- The entries with the same value of a label. -/
def sameValue (label : String) (e : EntryMetadata) (entries : List EntryMetadata) : List EntryMetadata :=
  entries.filter fun e' => labelValue label e' = labelValue label e

/-- Not later in either respect. -/
def Under (m e : EntryMetadata) : Prop := e.ModTime ≤ m.ModTime ∧ e.ID ≤ m.ID

def Tied (m e : EntryMetadata) : Prop := e.ModTime = m.ModTime ∧ e.ID = m.ID

theorem isLaterThan_eq_false : isLaterThan (some e) (some m) = false ↔ Under m e := by
  rw [isLaterThan]
  split
  next later => exact ⟨by simp,fun under => absurd under.1 (not_le.mpr later)⟩
  next time => rw [decide_eq_false_iff_not,gt_iff_lt,not_lt,Under,and_iff_right (not_lt.mp time)]

theorem Under.trans (above : Under m e') (below : Under e' e) : Under m e := ⟨below.1.trans above.1,below.2.trans above.2⟩

theorem Under.tied (above : Under m e) (below : Under e m) : Tied m e := ⟨le_antisymm above.1 below.1,le_antisymm above.2 below.2⟩

theorem Tied.under (tied : Tied m e) : Under e m := ⟨tied.1.ge,tied.2.ge⟩

def pick (latest : Option EntryMetadata) (e : EntryMetadata) : Option EntryMetadata :=
  if isLaterThan (some e) latest then some e else latest

theorem pick_some (latest : EntryMetadata) : pick (some latest) e = some (if isLaterThan (some e) (some latest) then e else latest) := by
  rw [pick]
  split
  next later => rfl
  next => rfl

/-- Once an entry has been picked that all are under, it stays, and it is picked when it is met, up to ties. -/
theorem foldl_pick (under : ∀ e ∈ l, Under m e) {latest : EntryMetadata} (start : Under m latest) (here : Tied m latest ∨ m ∈ l) :
    ∃ last, l.foldl pick (some latest) = some last ∧ Tied m last ∧ (last = latest ∨ last ∈ l) := by
  induction l generalizing latest with
  | nil =>
    rcases here with tied | absurd
    · exact ⟨latest,rfl,tied,.inl rfl⟩
    · contradiction
  | cons e l ih =>
    have own := under e List.mem_cons_self
    have rest := fun e' member => under e' (List.mem_cons_of_mem e member)
    rw [List.foldl_cons,pick_some]
    cases later : isLaterThan (some e) (some latest) with
    | true =>
      rw [if_pos rfl]
      have next : Tied m e ∨ m ∈ l := by
        rcases here with tied | member
        · have not : isLaterThan (some e) (some latest) = false := isLaterThan_eq_false.mpr (tied.under.trans own)
          rw [not] at later
          contradiction
        · rcases List.mem_cons.mp member with rfl | member
          · exact .inl ⟨rfl,rfl⟩
          · exact .inr member
      obtain ⟨last,found,tied,there⟩ := ih rest own next
      exact ⟨last,found,tied,.inr (List.mem_cons.mpr there)⟩
    | false =>
      rw [if_neg (by simp)]
      have next : Tied m latest ∨ m ∈ l := by
        rcases here with tied | member
        · exact .inl tied
        · rcases List.mem_cons.mp member with rfl | member
          · exact .inl (start.tied (isLaterThan_eq_false.mp later))
          · exact .inr member
      obtain ⟨last,found,tied,there⟩ := ih rest start next
      exact ⟨last,found,tied,there.imp_right (List.mem_cons_of_mem e)⟩

/-- An entry that all are under is picked in any order, up to ties. -/
theorem latestOf_under (member : m ∈ l) (under : ∀ e ∈ l, Under m e) : ∃ last ∈ l, latestOf l = some last ∧ Tied m last := by
  cases l with
  | nil => contradiction
  | cons e l =>
    have here : Tied m e ∨ m ∈ l := by
      rcases List.mem_cons.mp member with rfl | member
      · exact .inl ⟨rfl,rfl⟩
      · exact .inr member
    obtain ⟨last,found,tied,there⟩ := foldl_pick (fun e' member => under e' (List.mem_cons_of_mem e member))
      (under e List.mem_cons_self) here
    exact ⟨last,List.mem_cons.mpr there,found,tied⟩

theorem latestOf_concat : latestOf (l ++ [e]) = pick (latestOf l) e := by
  rw [latestOf,List.foldl_append]
  rfl

theorem latestOf_mem (found : latestOf l = some m) : m ∈ l := by
  induction l using List.reverseRecOn generalizing m with
  | nil => contradiction
  | append_singleton l e ih =>
    rw [latestOf_concat,pick] at found
    split at found
    next =>
      cases found
      exact List.mem_append_right l List.mem_cons_self
    next => exact List.mem_append_left _ (ih found)

theorem latestOf_some (member : e ∈ l) : ∃ m, latestOf l = some m := by
  induction l using List.reverseRecOn generalizing e with
  | nil => contradiction
  | append_singleton l e' ih =>
    rw [latestOf_concat,pick]
    split
    next => exact ⟨e',rfl⟩
    next stays =>
      rcases List.mem_append.mp member with earlier | last
      · exact ih earlier
      · cases found : latestOf l with
        | none =>
          rw [found] at stays
          exact absurd rfl stays
        | some m => exact ⟨m,rfl⟩

/-- For each value of a label the map has what would be picked. -/
theorem get?_latestByLabel (entries : List EntryMetadata) (label value : String) :
    (latestByLabel entries label).get? value = latestOf (entries.filter fun e => labelValue label e = value) := by
  induction entries using List.reverseRecOn with
  | nil => rfl
  | append_singleton entries e ih =>
    rw [latestByLabel,List.foldl_append,List.filter_append]
    change (if isLaterThan (some e) ((latestByLabel entries label).get? (labelValue label e)) then (latestByLabel entries label).set e
      else latestByLabel entries label).get? value = _
    by_cases own : labelValue label e = value
    · subst own
      rw [List.filter_cons_of_pos (by simp),List.filter_nil,latestOf_concat,pick,← ih]
      split
      next => rw [Keyed.get?_set,if_pos rfl]
      next => rfl
    · rw [List.filter_cons_of_neg (by simpa using own),List.filter_nil,List.append_nil,← ih]
      split
      next => rw [Keyed.get?_set,if_neg (Ne.symm own)]
      next => rfl

theorem mem_latestByLabel : m ∈ (latestByLabel entries label).values ↔ latestOf (sameValue label m entries) = some m := by
  rw [Keyed.mem_values,get?_latestByLabel]
  rfl

end Picks

section Selects
variable {entries l : List EntryMetadata} {e m : EntryMetadata} {label : String}

/-- The time is greatest, and among those of that time the identifier is. -/
structure IsLatest (entries : List EntryMetadata) (m : EntryMetadata) : Prop where
  member : m ∈ entries
  latest : ∀ e ∈ entries, e.ModTime < m.ModTime ∨ (e.ModTime = m.ModTime ∧ e.ID ≤ m.ID)

/-- In whatever order the entries come, the latest is picked, and of those with the same value of the label the one that would be
picked is kept, in increasing order. -/
structure Selects (entries : List EntryMetadata) (label : String) : Prop where
  picks : ∀ l, l.Perm entries → ∃ m, IsLatest entries m ∧ PickLatestID l = m.ID
  dedupes : ∃ result, (∀ (sorting : Sorting) visit l, (∀ l, (visit l).Perm l) → l.Perm entries →
      DedupeEntryMetadataByLabel sorting visit l label = result) ∧
    result.Pairwise (fun l r => metadataLess l r) ∧ (∀ m ∈ result, m ∈ entries) ∧
    ∀ e ∈ entries, ∀ l, l.Perm entries → ∃ m, sameValue label e result = [m] ∧ PickLatestID (sameValue label e l) = m.ID

/-- All are under one of them, which no other is tied with. -/
structure Leads (l : List EntryMetadata) (m : EntryMetadata) : Prop where
  member : m ∈ l
  under : ∀ e ∈ l, Under m e
  own : ∀ e ∈ l, Tied m e → e = m

/-- A greatest time goes with a greatest identifier, among all entries and among those with a value of the label, and there
are no ties between what leads these. -/
structure Ordered (entries : List EntryMetadata) (label : String) : Prop where
  all : ∃ m ∈ entries, ∀ e ∈ entries, Under m e
  values : ∀ e ∈ entries, ∃ m, Leads (sameValue label e entries) m
  apart : ∀ m m', Leads (sameValue label m entries) m → Leads (sameValue label m' entries) m' → Tied m m' → m = m'

theorem Leads.perm (leads : Leads l m) {l' : List EntryMetadata} (same : l'.Perm l) : latestOf l' = some m := by
  obtain ⟨last,there,found,tied⟩ := latestOf_under (same.mem_iff.mpr leads.member) fun e member => leads.under e (same.mem_iff.mp member)
  rw [found,leads.own last (same.mem_iff.mp there) tied]

/-- What is picked in every order leads. -/
theorem leads_of_perm (always : ∀ l', l'.Perm l → latestOf l' = some m) : Leads l m := by
  have under (e : EntryMetadata) (member : e ∈ l) : Under m e := by
    by_cases same : e = m
    · exact same ▸ ⟨le_rfl,le_rfl⟩
    · obtain ⟨before,after,rfl⟩ := List.append_of_mem member
      have last := always (before ++ after ++ [e]) (by rw [List.append_assoc]; exact (List.perm_append_singleton e after).append_left before)
      rw [latestOf_concat,pick] at last
      split at last
      next => exact absurd (Option.some.inj last) same
      next stays =>
        rw [last,Bool.not_eq_true] at stays
        exact isLaterThan_eq_false.mp stays
  refine ⟨latestOf_mem (always l (.refl l)),under,fun e member tied => ?_⟩
  obtain ⟨before,after,rfl⟩ := List.append_of_mem member
  have first := always (e :: (before ++ after)) List.perm_middle.symm
  have above (e' : EntryMetadata) (inside : e' ∈ before ++ after) : Under e e' := by
    refine tied.under.trans (under e' ?_)
    rw [List.mem_append] at inside
    simp only [List.mem_append,List.mem_cons]
    tauto
  -- an entry stays that was picked first, if the others are under it
  have stays : ∀ l : List EntryMetadata, (∀ e' ∈ l, Under e e') → l.foldl pick (some e) = some e := by
    intro l below
    induction l with
    | nil => rfl
    | cons e' l ih =>
      rw [List.foldl_cons,pick_some,isLaterThan_eq_false.mpr (below e' List.mem_cons_self)]
      exact ih fun other later => below other (List.mem_cons_of_mem e' later)
  exact Option.some.inj ((stays _ above).symm.trans first)

theorem metadataLess_iff (a b : EntryMetadata) : metadataLess a b = true ↔ toLex (a.ModTime,a.ID) < toLex (b.ModTime,b.ID) := by
  rw [metadataLess,Prod.Lex.toLex_lt_toLex]
  split
  next other => simp [other]
  next same => simp [not_not.mp same]

theorem comparing_metadata : Comparing metadataLess := comparing_key (fun e : EntryMetadata => toLex (e.ModTime,e.ID)) metadataLess_iff

theorem not_tied_of_less {a b : EntryMetadata} (less : metadataLess a b) : ¬ Tied a b := by
  rintro ⟨time,ID⟩
  rw [metadataLess_iff,time,ID] at less
  exact lt_irrefl _ less

theorem sameValue_perm {l l' : List EntryMetadata} (same : l.Perm l') (e : EntryMetadata) :
    (sameValue label e l).Perm (sameValue label e l') := same.filter _

theorem mem_sameValue {e' : EntryMetadata} : e' ∈ sameValue label e l ↔ e' ∈ l ∧ labelValue label e' = labelValue label e := by
  rw [sameValue,List.mem_filter,decide_eq_true_eq]

theorem sameValue_congr {e' : EntryMetadata} (same : labelValue label e' = labelValue label e) :
    sameValue label e' l = sameValue label e l := by
  rw [sameValue,same]
  rfl

namespace Ordered
variable (ordered : Ordered entries label)
include ordered

theorem mem_values (same : l.Perm entries) : m ∈ (latestByLabel l label).values ↔ Leads (sameValue label m entries) m := by
  rw [mem_latestByLabel]
  constructor
  · intro found
    have member := (sameValue_perm same m).mem_iff.mp (latestOf_mem found)
    obtain ⟨leader,leads⟩ := ordered.values m (mem_sameValue.mp member).1
    rw [leads.perm (sameValue_perm same m)] at found
    exact Option.some.inj found ▸ leads
  · exact fun leads => leads.perm (sameValue_perm same m)

theorem increasing (sorting : Sorting) {visit : List EntryMetadata → List EntryMetadata} (visited : ∀ l, (visit l).Perm l)
    (same : l.Perm entries) : (DedupeEntryMetadataByLabel sorting visit l label).Pairwise fun l r => metadataLess l r := by
  have perm := (sorting.perm metadataLess _).trans (visited (latestByLabel l label).values)
  have nodup : (DedupeEntryMetadataByLabel sorting visit l label).Nodup := perm.nodup_iff.mpr (List.Nodup.of_map _ (latestByLabel l label).nodup)
  refine ((sorting.sorted metadataLess comparing_metadata _).and nodup).imp_of_mem fun {a b} left right both => ?_
  have leads (m : EntryMetadata) (member : m ∈ DedupeEntryMetadataByLabel sorting visit l label) :=
    (ordered.mem_values same).mp (perm.mem_iff.mp member)
  have order := both.1
  rw [← Bool.not_eq_true,metadataLess_iff,not_lt,Prod.Lex.toLex_le_toLex] at order
  rw [metadataLess_iff,Prod.Lex.toLex_lt_toLex]
  refine order.imp_right fun tie => ⟨tie.1,lt_of_le_of_ne tie.2 fun equal => ?_⟩
  exact both.2 (ordered.apart a b (leads a left) (leads b right) ⟨tie.1.symm,equal.symm⟩)

theorem dedupe_eq (sorting : Sorting) {visit : List EntryMetadata → List EntryMetadata} (visited : ∀ l, (visit l).Perm l)
    (same : l.Perm entries) : DedupeEntryMetadataByLabel sorting visit l label = DedupeEntryMetadataByLabel .stable id entries label := by
  have perm := (sorting.perm metadataLess _).trans (visited (latestByLabel l label).values)
  have values : (latestByLabel l label).values.Perm (latestByLabel entries label).values := by
    rw [List.perm_ext_iff_of_nodup (List.Nodup.of_map _ (latestByLabel l label).nodup) (List.Nodup.of_map _ (latestByLabel entries label).nodup)]
    intro m
    rw [ordered.mem_values same,ordered.mem_values (.refl entries)]
  refine List.Perm.eq_of_pairwise (fun a b _ _ left right => ?_) (ordered.increasing sorting visited same)
    (ordered.increasing .stable (fun _ => .refl _) (.refl entries)) (perm.trans (values.trans (Sorting.stable.perm _ _).symm))
  rw [metadataLess_iff] at left right
  exact absurd left right.asymm

theorem selects : Selects entries label := by
  constructor
  · intro l same
    obtain ⟨m,member,under⟩ := ordered.all
    obtain ⟨last,there,found,tied⟩ := latestOf_under (same.mem_iff.mpr member) fun e inside => under e (same.mem_iff.mp inside)
    refine ⟨last,⟨same.mem_iff.mp there,fun e inside => ?_⟩,by rw [PickLatestID,found]⟩
    have below := tied.under.trans (under e inside)
    exact below.1.lt_or_eq.imp_right fun time => ⟨time,below.2⟩
  · refine ⟨DedupeEntryMetadataByLabel .stable id entries label,fun sorting visit l visited same => ordered.dedupe_eq sorting visited same,
      ordered.increasing .stable (fun _ => .refl _) (.refl entries),fun m member => ?_,fun e member l same => ?_⟩
    · have inside := (Sorting.stable.perm _ _).mem_iff.mp member
      exact (mem_sameValue.mp ((ordered.mem_values (.refl entries)).mp inside).member).1
    · obtain ⟨m,leads⟩ := ordered.values e member
      refine ⟨m,?_,by rw [PickLatestID,leads.perm (sameValue_perm same e)]⟩
      have listed := (Listings.lists_iff fun c i found => Keyed.get?_key found).mp (latestByLabel entries label).lists (labelValue label e)
      rw [get?_latestByLabel] at listed
      refine List.perm_singleton.mp ((sameValue_perm (Sorting.stable.perm _ _) e).trans (.of_eq ?_))
      have found : latestOf (sameValue label e entries) = some m := leads.perm (.refl _)
      exact listed.trans (congrArg Option.toList found)

end Ordered

/-- Exactly where greatest times go with greatest identifiers, the latest entries are selected in every order. -/
theorem Selects_iff_Ordered (entries : List EntryMetadata) (label : String) : Selects entries label ↔ Ordered entries label := by
  constructor
  · intro selects
    obtain ⟨result,independent,increasing,inside,values⟩ := selects.dedupes
    have leads (e : EntryMetadata) (member : e ∈ entries) : ∃ m ∈ result, Leads (sameValue label e entries) m := by
      obtain ⟨m,own,_⟩ := values e member entries (.refl entries)
      have there : m ∈ sameValue label e result := by rw [own]; exact List.mem_cons_self
      refine ⟨m,(mem_sameValue.mp there).1,leads_of_perm fun l same => ?_⟩
      -- the entries with another value come last
      have perm : (l ++ entries.filter fun e' => !decide (labelValue label e' = labelValue label e)).Perm entries :=
        (same.append_right _).trans (List.filter_append_perm _ entries)
      have kept := mem_sameValue.mp there
      rw [← independent .stable id _ (fun _ => .refl _) perm] at kept
      have found := mem_latestByLabel.mp ((Sorting.stable.perm _ _).mem_iff.mp kept.1)
      have all : l.filter (fun e' => labelValue label e' = labelValue label e) = l := by
        rw [List.filter_eq_self]
        exact fun e' member => (List.mem_filter.mp (same.mem_iff.mp member)).2
      rw [sameValue_congr kept.2,sameValue,List.filter_append,all,List.filter_filter] at found
      simpa using found
    refine ⟨?_,fun e member => ?_,fun m m' first second tied => ?_⟩
    · obtain ⟨m,latest,_⟩ := selects.picks entries (.refl entries)
      refine ⟨m,latest.member,fun e member => ⟨?_,?_⟩⟩
      · rcases latest.latest e member with less | tie
        · exact less.le
        · exact tie.1.le
      · by_contra greater
        obtain ⟨before,after,split⟩ := List.append_of_mem member
        obtain ⟨m',latest',picked⟩ := selects.picks (before ++ after ++ [e])
          (by rw [split,List.append_assoc]; exact (List.perm_append_singleton e after).append_left before)
        have same : m'.ID = m.ID := by
          have left := latest.latest m' latest'.member
          have right := latest'.latest m latest.member
          rcases left with less | ⟨time,ID⟩
          · rcases right with less' | tie
            · exact absurd less less'.asymm
            · exact absurd tie.1 less.ne'
          · rcases right with less' | tie
            · exact absurd time less'.ne'
            · exact le_antisymm ID tie.2
        rw [PickLatestID,latestOf_concat,same] at picked
        cases found : latestOf (before ++ after) with
        | none =>
          rw [found] at picked
          exact greater (le_of_eq picked)
        | some x =>
          rw [found,pick_some] at picked
          dsimp only at picked
          split at picked
          next => exact greater (le_of_eq picked)
          next stays => exact greater ((isLaterThan_eq_false.mp (Bool.not_eq_true _ ▸ stays)).2.trans (le_of_eq picked))
    · obtain ⟨m,_,leads⟩ := leads e member
      exact ⟨m,leads⟩
    · have kept (m : EntryMetadata) (own : Leads (sameValue label m entries) m) : m ∈ result := by
        obtain ⟨m',there,other⟩ := leads m (mem_sameValue.mp own.member).1
        have same := (own.perm (.refl _)).symm.trans (other.perm (.refl _))
        exact Option.some.inj same ▸ there
      by_contra other
      have apart : result.Pairwise fun a b => ¬ Tied a b := increasing.imp not_tied_of_less
      have symmetric : Std.Symm fun a b => ¬ Tied a b := ⟨fun a b none tied => none ⟨tied.1.symm,tied.2.symm⟩⟩
      exact apart.forall (kept m first) (kept m' second) other tied
  · exact Ordered.selects

def laterEntry : EntryMetadata := ⟨"a",0,.empty,2⟩

def earlierEntry : EntryMetadata := ⟨"b",0,.empty,1⟩

theorem Selects_earlier : ¬ ∀ (entries : List EntryMetadata) (label : String), entries ≠ [] → Selects entries label := by
  intro all
  obtain ⟨m,latest,picked⟩ := (all [laterEntry,earlierEntry] "type" (by simp)).picks _ (.refl _)
  have ID : laterEntry.ID < earlierEntry.ID := by
    rw [String.lt_iff_toList_lt]
    decide
  have later : isLaterThan (some earlierEntry) (some laterEntry) = true := by
    rw [isLaterThan,if_neg (by decide)]
    exact decide_eq_true ID
  have found : latestOf ([laterEntry] ++ [earlierEntry]) = some earlierEntry := by
    rw [latestOf_concat]
    exact if_pos later
  rw [PickLatestID,show [laterEntry,earlierEntry] = [laterEntry] ++ [earlierEntry] from rfl,found] at picked
  rcases latest.latest laterEntry (by simp) with less | tie
  · rcases List.mem_pair.mp latest.member with rfl | rfl
    · exact absurd less (lt_irrefl _)
    · exact absurd less (by decide)
  · rcases List.mem_pair.mp latest.member with rfl | rfl
    · exact absurd picked ID.ne'
    · exact absurd tie.1 (by decide)

end Selects

end Vbe.Manifests
