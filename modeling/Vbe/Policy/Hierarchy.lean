import Vbe.Manifests.Latest
import Vbe.Library.Results
import Vbe.Policy.PolicyMerge
import Vbe.Policy.ParentPaths

/-! The policies of a source in a repository: the one defined for it, and those of its parents that
are merged with it. -/
namespace Vbe.Policies
open Vbe.Library Vbe.Library.Results Vbe.Manifests
open Vbe.Policy (OptionalInt SourceInfo)

/-- A manifest of a policy, which does not hold the labels itself. -/
structure PolicyManifest where
  metadata : EntryMetadata
  policy : Policy

structure Repository where
  manifests : List PolicyManifest
  nodup : (manifests.map fun m => m.metadata.ID).Nodup

inductive PolicyError where
  | policyNotFound
  | loading (id : String) (e : PolicyError)
  | panicked

section Functions
variable (sorting : Sorting) (rep : Repository)

/-- In ascending order of time, with manifests of one time in any order. -/
def FindManifests (labels : Policies.Labels) : List EntryMetadata :=
  sorting.sort (fun a b => a.ModTime < b.ModTime) ((rep.manifests.map fun m => m.metadata).filter fun md => matchesLabels md.Labels labels)

def GetManifest (id : String) : Option PolicyManifest := rep.manifests.find? fun m => m.metadata.ID = id

def loadPolicyFromManifest (id : String) : Except PolicyError Policy :=
  match GetManifest rep id with
  | none => .error .policyNotFound
  | some m => .ok { m.policy with labels := m.metadata.Labels.set ("id",m.metadata.ID) }

/-- The manifests of paths up to the root, of `user@host`, of the host and the global ones. -/
def hierarchyManifests (si : SourceInfo) (paths : List (List Char)) : List EntryMetadata :=
  (paths.flatMap fun p => FindManifests sorting rep (LabelsForSource { si with path := String.ofList p })) ++
    FindManifests sorting rep (LabelsForSource ⟨si.host,si.userName,""⟩) ++
    FindManifests sorting rep (LabelsForSource ⟨si.host,"",""⟩) ++
    FindManifests sorting rep (LabelsForSource GlobalPolicySourceInfo)

/-- An empty policy stands for the source if there is no policy of its own. -/
def withOwn (si : SourceInfo) (policies : List Policy) : List Policy :=
  if (policies.head?.map Policy.Target) ≠ some si then .blank (LabelsForSource si) :: policies else policies

def loadListed (em : EntryMetadata) : Except PolicyError Policy :=
  match loadPolicyFromManifest rep em.ID with
  | .error e => .error (.loading em.ID e)
  | .ok p => .ok p

/-- Without an override. -/
def GetPolicyHierarchy (si : SourceInfo) : Except PolicyError (List Policy) :=
  match if si.path = "" then some [] else parentPaths si.path.toList with
  | none => .error .panicked
  | some paths => do
    let policies ← (hierarchyManifests sorting rep si paths).mapM (loadListed rep)
    pure (withOwn si policies)

def GetEffectivePolicy (si : SourceInfo) : Except PolicyError (Policy × Definition) := do
  let policies ← GetPolicyHierarchy sorting rep si
  pure (MergePolicies policies si)

def GetDefinedPolicy (si : SourceInfo) : Except PolicyError Policy :=
  let md := FindManifests sorting rep (LabelsForSource si)
  if md.length = 0 then .error .policyNotFound else loadPolicyFromManifest rep (PickLatestID md)

end Functions

section Loading
variable {sorting : Sorting} {rep : Repository}

/-- The policy that a manifest is loaded as. -/
def policyOf (rep : Repository) (md : EntryMetadata) : Policy :=
  match loadPolicyFromManifest rep md.ID with
  | .ok p => p
  | .error _ => .blank md.Labels

def policiesFor (sorting : Sorting) (rep : Repository) (si : SourceInfo) : List Policy :=
  (FindManifests sorting rep (LabelsForSource si)).map (policyOf rep)

theorem mem_FindManifests {labels : Policies.Labels} {md : EntryMetadata} :
    md ∈ FindManifests sorting rep labels ↔ (∃ m ∈ rep.manifests, m.metadata = md) ∧ matchesLabels md.Labels labels = true := by
  rw [FindManifests,(sorting.perm _ _).mem_iff,List.mem_filter,List.mem_map]

theorem load_manifest {m : PolicyManifest} (member : m ∈ rep.manifests) :
    loadPolicyFromManifest rep m.metadata.ID = .ok { m.policy with labels := m.metadata.Labels.set ("id",m.metadata.ID) } := by
  have own : GetManifest rep m.metadata.ID = some m :=
    (Keyed.mem_values (m := ⟨rep.manifests,rep.nodup⟩)).mp member
  rw [loadPolicyFromManifest,own]

theorem load_found {labels : Policies.Labels} {md : EntryMetadata} (found : md ∈ FindManifests sorting rep labels) :
    loadPolicyFromManifest rep md.ID = .ok (policyOf rep md) ∧ (policyOf rep md).labels = md.Labels.set ("id",md.ID) := by
  obtain ⟨⟨m,member,rfl⟩,-⟩ := mem_FindManifests.mp found
  rw [policyOf,load_manifest member]
  exact ⟨rfl,rfl⟩

/-- The labels that a source with a path is looked up by say which source it is. -/
theorem Target_policyOf {si : SourceInfo} (path : si.path ≠ "") {md : EntryMetadata}
    (found : md ∈ FindManifests sorting rep (LabelsForSource si)) : (policyOf rep md).Target = si := by
  have matching := List.all_eq_true.mp (mem_FindManifests.mp found).2
  rw [LabelsForSource,if_pos path] at matching
  have has (label value : String) (other : label ≠ "id") (member : (label,value) ∈ (Labels.of [(typeKey,ManifestType),
      (PolicyTypeLabel,PolicyTypePath),(UsernameLabel,si.userName),(HostnameLabel,si.host),(PathLabel,si.path)]).values) :
      (policyOf rep md).labels.value label = value := by
    have own : md.Labels.get? label = some (label,value) := by simpa using matching _ member
    rw [(load_found found).2,Labels.value,Keyed.get?_set,if_neg other,own]
    rfl
  have host := has HostnameLabel si.host (by decide) (by
    rw [Keyed.mem_values]
    simp [Labels.of,Keyed.setAll,Keyed.get?_set,typeKey,PolicyTypeLabel,UsernameLabel,HostnameLabel,PathLabel])
  have user := has UsernameLabel si.userName (by decide) (by
    rw [Keyed.mem_values]
    simp [Labels.of,Keyed.setAll,Keyed.get?_set,typeKey,PolicyTypeLabel,UsernameLabel,HostnameLabel,PathLabel])
  have own := has PathLabel si.path (by decide) (by
    rw [Keyed.mem_values]
    simp [Labels.of,Keyed.setAll,Keyed.get?_set,typeKey,PolicyTypeLabel,UsernameLabel,HostnameLabel,PathLabel])
  rw [Policy.Target,host,user,own]

/-- Of manifests in ascending order of time, the one that is picked is the latest. -/
theorem latestOf_ascending {l : List EntryMetadata} (sorted : l.Pairwise fun a b => a.ModTime ≤ b.ModTime) (some : l ≠ []) :
    ∃ m, latestOf l = .some m ∧ IsLatest l m := by
  induction l using List.reverseRecOn with
  | nil => contradiction
  | append_singleton front e ih =>
    rw [latestOf_concat]
    by_cases first : front = []
    · subst first
      exact ⟨e,rfl,by simp,by simp⟩
    · obtain ⟨m,found,latest⟩ := ih (List.pairwise_append.mp sorted).1 first
      have before := (List.pairwise_append.mp sorted).2.2
      have order : m.ModTime ≤ e.ModTime := before m latest.member e (by simp)
      rw [found,pick_some]
      by_cases later : m.ModTime < e.ModTime
      · refine ⟨e,by simp [isLaterThan,later],by simp,fun e' member => ?_⟩
        rcases List.mem_append.mp member with inside | last
        · have le : e'.ModTime ≤ m.ModTime := by
            rcases latest.latest e' inside with less | same
            · exact less.le
            · exact same.1.le
          exact .inl (le.trans_lt later)
        · exact List.mem_singleton.mp last ▸ .inr ⟨rfl,le_refl _⟩
      · have same : m.ModTime = e.ModTime := le_antisymm order (not_lt.mp later)
        by_cases greater : e.ID > m.ID
        · refine ⟨e,by simp [isLaterThan,same,greater],by simp,fun e' member => ?_⟩
          rcases List.mem_append.mp member with inside | last
          · rcases latest.latest e' inside with less | tied
            · exact .inl (less.trans_eq same)
            · exact .inr ⟨tied.1.trans same,tied.2.trans greater.le⟩
          · exact List.mem_singleton.mp last ▸ .inr ⟨rfl,le_refl _⟩
        · refine ⟨m,by simp [isLaterThan,same,greater],by simp [latest.member],fun e' member => ?_⟩
          rcases List.mem_append.mp member with inside | last
          · exact latest.latest e' inside
          · exact List.mem_singleton.mp last ▸ .inr ⟨same.symm,not_lt.mp greater⟩

theorem FindManifests_ascending (labels : Policies.Labels) :
    (FindManifests sorting rep labels).Pairwise fun a b => a.ModTime ≤ b.ModTime := by
  have comparing : Comparing fun a b : EntryMetadata => decide (a.ModTime < b.ModTime) :=
    comparing_key EntryMetadata.ModTime fun a b => decide_eq_true_iff
  exact (sorting.sorted _ comparing _).imp fun order => by simpa using order

/-- The defined policy is that of the latest manifest. -/
theorem GetDefinedPolicy_latest {si : SourceInfo} {p : Policy} (defined : GetDefinedPolicy sorting rep si = .ok p) :
    ∃ latest, IsLatest (FindManifests sorting rep (LabelsForSource si)) latest ∧ policyOf rep latest = p := by
  unfold GetDefinedPolicy at defined
  dsimp only at defined
  split at defined
  next => contradiction
  next some =>
    obtain ⟨m,found,latest⟩ := latestOf_ascending (@FindManifests_ascending sorting rep (LabelsForSource si))
      fun none => some (by rw [none]; rfl)
    rw [PickLatestID,found,(load_found latest.member).1] at defined
    exact ⟨m,latest,Except.ok.inj defined⟩

/-- The hierarchy holds the policies of the paths up to the root, then those of `user@host`, the host and all. -/
theorem GetPolicyHierarchy_eq {si : SourceInfo} (path : si.path ≠ "") {paths : List (List Char)}
    (up : parentPaths si.path.toList = some paths) (own : FindManifests sorting rep (LabelsForSource si) ≠ []) :
    GetPolicyHierarchy sorting rep si = .ok ((paths.flatMap fun p => policiesFor sorting rep { si with path := String.ofList p }) ++
      policiesFor sorting rep ⟨si.host,si.userName,""⟩ ++ policiesFor sorting rep ⟨si.host,"",""⟩ ++
      policiesFor sorting rep GlobalPolicySourceInfo) := by
  have found : ∀ md ∈ hierarchyManifests sorting rep si paths, ∃ labels, md ∈ FindManifests sorting rep labels := by
    intro md member
    simp only [hierarchyManifests,List.mem_append,List.mem_flatMap] at member
    rcases member with ((⟨p,_,here⟩ | here) | here) | here
    · exact ⟨_,here⟩
    · exact ⟨_,here⟩
    · exact ⟨_,here⟩
    · exact ⟨_,here⟩
  have loaded : (hierarchyManifests sorting rep si paths).mapM (loadListed rep) =
      .ok ((hierarchyManifests sorting rep si paths).map (policyOf rep)) := by
    refine mapM_ok fun md member => ?_
    obtain ⟨labels,here⟩ := found md member
    rw [loadListed,(load_found here).1]
  have nonempty : si.path.toList ≠ [] := fun none => path (by rw [← String.ofList_toList (s := si.path),none])
  obtain ⟨above,first⟩ := parentPaths_some nonempty
  have head : ((hierarchyManifests sorting rep si paths).map (policyOf rep)).head?.map Policy.Target = some si := by
    have whole : paths = si.path.toList :: above := Option.some.inj (up.symm.trans first)
    obtain ⟨md,rest,split⟩ := List.exists_cons_of_ne_nil own
    have member : md ∈ FindManifests sorting rep (LabelsForSource si) := by simp [split]
    have target := Target_policyOf path member
    rw [hierarchyManifests,whole,List.flatMap_cons,String.ofList_toList,split]
    simp [target]
  rw [GetPolicyHierarchy,if_neg path,up]
  dsimp only
  rw [loaded,ok_bind,withOwn,if_neg (not_not.mpr head)]
  simp only [hierarchyManifests,List.map_append,List.map_flatMap,policiesFor]
  rfl

theorem upTo_append (flag : Policy → Bool) (own rest : List Policy) :
    upTo flag (own ++ rest) = if own.any flag then upTo flag own else own ++ upTo flag rest := by
  induction own with
  | nil => rfl
  | cons p own ih =>
    rw [List.cons_append,upTo,upTo,List.any_cons,ih]
    cases flag p with
    | true => simp
    | false =>
      simp only [Bool.false_eq_true,if_false,Bool.false_or]
      split
      next => rfl
      next => rfl

/-- Less specific policies do not matter for what the source's own policies set. -/
theorem find_considered {own rest : List Policy} {p : Policy} (member : p ∈ own) {isSet : Policy → Bool} (sets : isSet p = true) :
    (considered (own ++ rest)).find? isSet = (upTo (fun p => p.noParent) own).find? isSet := by
  have found : ∃ q, own.find? isSet = some q := by
    cases none : own.find? isSet with
    | some q => exact ⟨q,rfl⟩
    | none => exact absurd sets (List.find?_eq_none.mp none p member)
  obtain ⟨q,found⟩ := found
  cases early : own.any fun p => p.noParent with
  | true => rw [considered,List.any_append,early,Bool.true_or,if_pos rfl,upTo_append,if_pos early]
  | false =>
    have prefixed : ∃ more, considered (own ++ rest) = own ++ more := by
      unfold considered
      split
      next => exact ⟨_,by rw [upTo_append,early]; rfl⟩
      next => exact ⟨_,List.append_assoc _ _ _⟩
    obtain ⟨more,same⟩ := prefixed
    rw [same,upTo_none early,List.find?_append,found]
    rfl

end Loading

section Settings

/-- An optional or scalar field, and which of its values set it. -/
structure Setting where
  {α : Type}
  value : Policy → α
  isSet : α → Bool

/-- Where the first policy sets the field, the second has the same value. -/
def Setting.Agrees (s : Setting) (p effective : Policy) : Prop := s.isSet (s.value p) = true → s.value effective = s.value p

/-- The fields that the first policy to set them decides. -/
def inheritedSettings : List Setting :=
  fields.map (fun f => ⟨f.value,f.isSet⟩) ++
    [⟨fun p => p.scheduling.noParentTimesOfDay,id⟩,
      ⟨fun p => p.compression.noParentOnlyCompress,id⟩,
      ⟨fun p => p.compression.noParentNeverCompress,id⟩]

def folderSettings : List Setting :=
  [⟨fun p => p.actions.beforeFolder,Option.isSome⟩,⟨fun p => p.actions.afterFolder,Option.isSome⟩]

def noParentSetting : Setting := ⟨fun p => p.noParent,id⟩

def settings : List Setting := inheritedSettings ++ folderSettings ++ [noParentSetting]

/-- Of the policies for the source itself, up to one without parent, the first that sets the field has the value. -/
def FirstAgrees (s : Setting) (own : List Policy) (p : Policy) : Prop :=
  ∃ q, ((upTo (fun p => p.noParent) own).find? fun q => s.isSet (s.value q)) = some q ∧ s.value q = s.value p

theorem FirstAgrees_single (s : Setting) {p : Policy} (sets : s.isSet (s.value p) = true) : FirstAgrees s [p] p :=
  ⟨p,by simp [upTo,sets],rfl⟩

/-- What the merge does to a field: the first considered policy to set it decides. -/
def Setting.Inherited (s : Setting) : Prop :=
  ∀ policies si,
    match (considered policies).find? fun p => s.isSet (s.value p) with
    | some q => s.value (MergePolicies policies si).1 = s.value q
    | none => s.isSet (s.value (MergePolicies policies si).1) = false

theorem flag_inherited {f : ListField} (follows : f.Follows)
    (kept : ∀ p : Policy, ∀ a, f.noParent { p with actions := p.actions.MergeNonInheritable a } = f.noParent p)
    (unset : ∀ labels, f.noParent (.blank labels) = false) : Setting.Inherited ⟨f.noParent,id⟩ := by
  intro policies si
  have merged : f.noParent (MergePolicies policies si).1 = (considered policies).any f.noParent := by
    rw [MergePolicies_value f.noParent kept,mergeAll_flag follows,start,unset,Bool.false_or]
  split
  next q found =>
    have own : f.noParent q = true := List.find?_some found
    refine (merged.trans ?_).trans own.symm
    exact List.any_eq_true.mpr ⟨q,List.mem_of_find?_eq_some found,own⟩
  next none => exact merged.trans (List.any_eq_false.mpr fun q member => List.find?_eq_none.mp none q member)

theorem settings_inherited : ∀ s ∈ inheritedSettings, s.Inherited := by
  intro s member
  rcases List.mem_append.mp member with inFields | inFlags
  · obtain ⟨f,isField,rfl⟩ := List.mem_map.mp inFields
    intro policies si
    obtain ⟨first,unset⟩ := MergePolicies_first policies si f isField
    dsimp only
    split
    next q found => exact (first q found).1
    next none => exact (unset none).1
  · rcases List.mem_cons.mp inFlags with rfl | inFlags
    · exact flag_inherited timesOfDay_follows (fun _ _ => rfl) fun _ => rfl
    rcases List.mem_cons.mp inFlags with rfl | inFlags
    · exact flag_inherited onlyCompress_follows (fun _ _ => rfl) fun _ => rfl
    · obtain rfl := List.mem_singleton.mp inFlags
      exact flag_inherited neverCompress_follows (fun _ _ => rfl) fun _ => rfl

theorem inherited_agrees_iff {s : Setting} (member : s ∈ inheritedSettings) {own : List Policy} {p : Policy} (inside : p ∈ own)
    (rest : List Policy) (si : SourceInfo) :
    s.Agrees p (MergePolicies (own ++ rest) si).1 ↔ (s.isSet (s.value p) = true → FirstAgrees s own p) := by
  refine forall_congr' fun sets => ?_
  have merged := settings_inherited s member (own ++ rest) si
  rw [@find_considered own rest p inside (fun p => s.isSet (s.value p)) sets] at merged
  unfold FirstAgrees
  split at merged
  next q found => simp [merged,found]
  next none =>
    refine ⟨fun same => ?_,fun ⟨q,found,_⟩ => by rw [none] at found; contradiction⟩
    rw [same,sets] at merged
    contradiction

/-- The commands of folders are those of the first policy, if none in the hierarchy is without parent. -/
theorem folder_agrees_iff {s : Setting} (member : s ∈ folderSettings) {own rest : List Policy} {p : Policy} (inside : p ∈ own)
    (si : SourceInfo) :
    s.Agrees p (MergePolicies (own ++ rest) si).1 ↔ (s.isSet (s.value p) = true →
      (∀ q ∈ own ++ rest, q.noParent = false) ∧ ∀ first ∈ own.head?, s.value first = s.value p) := by
  have command {g : Policy → Option ActionCommand} {effective : Policy} (merged : g effective =
      if (own ++ rest).any fun p => p.noParent then none else (own ++ rest).head?.bind g) (sets : (g p).isSome = true) :
      g effective = g p ↔ (∀ q ∈ own ++ rest, q.noParent = false) ∧ ∀ first ∈ own.head?, g first = g p := by
    obtain ⟨first,more,split⟩ := List.exists_cons_of_ne_nil (List.ne_nil_of_mem inside)
    rw [merged,split]
    cases any : (first :: more ++ rest).any fun p => p.noParent with
    | true =>
      obtain ⟨q,member,alone⟩ := List.any_eq_true.mp any
      refine ⟨fun lost => ?_,fun shared => ?_⟩
      · rw [← lost] at sets
        contradiction
      · rw [shared.1 q member] at alone
        contradiction
    | false =>
      have shared : ∀ q ∈ first :: more ++ rest, q.noParent = false := fun q member => by simpa using List.any_eq_false.mp any q member
      simpa using fun _ : g first = g p => shared
  obtain ⟨before,after⟩ := MergePolicies_folders (own ++ rest) si
  refine forall_congr' fun sets => ?_
  rcases List.mem_cons.mp member with rfl | member
  · exact command before sets
  · obtain rfl := List.mem_singleton.mp member
    exact command after sets

theorem MergePolicies_noParent (policies : List Policy) (si : SourceInfo) : (MergePolicies policies si).1.noParent = false := by
  have kept : ∀ m : Merged, (mergeAll m (considered policies)).merged.noParent = m.merged.noParent := by
    induction considered policies with
    | nil => exact fun m => rfl
    | cons p rest ih => exact fun m => ih (m.mergeOne p p.Target)
  rw [MergePolicies_value (fun p => p.noParent) fun _ _ => rfl]
  exact kept (start si)

/-- A clean path is listed with all its directories up to the root. -/
def UpToRoot (path : List Char) (paths : List (List Char)) : Prop :=
  ∀ vol names, Clean vol names → path = joined vol names → paths = directories vol names

theorem UpToRoot_iff {path : List Char} {paths : List (List Char)} (up : parentPaths path = some paths) :
    UpToRoot path paths ↔ ∀ vol names, Clean vol names → path = joined vol names → ¬ColonFirst path := by
  refine forall_congr' fun vol => forall_congr' fun names => forall_congr' fun clean => forall_congr' fun same => ?_
  subst same
  rw [← parentPaths_iff clean,up,Option.some.injEq]

/-- The policies of the source itself come first in the merge. -/
theorem GetEffectivePolicy_own {sorting : Sorting} {rep : Repository} {si : SourceInfo} (path : si.path ≠ "")
    (own : FindManifests sorting rep (LabelsForSource si) ≠ []) :
    ∃ paths rest,
      parentPaths si.path.toList = some paths ∧
      GetPolicyHierarchy sorting rep si = .ok ((paths.flatMap fun p => policiesFor sorting rep { si with path := String.ofList p }) ++
        policiesFor sorting rep ⟨si.host,si.userName,""⟩ ++ policiesFor sorting rep ⟨si.host,"",""⟩ ++
        policiesFor sorting rep GlobalPolicySourceInfo) ∧
      (paths.flatMap fun p => policiesFor sorting rep { si with path := String.ofList p }) ++
        policiesFor sorting rep ⟨si.host,si.userName,""⟩ ++ policiesFor sorting rep ⟨si.host,"",""⟩ ++
        policiesFor sorting rep GlobalPolicySourceInfo = policiesFor sorting rep si ++ rest ∧
      GetEffectivePolicy sorting rep si = .ok (MergePolicies (policiesFor sorting rep si ++ rest) si) := by
  have nonempty : si.path.toList ≠ [] := fun none => path (by rw [← String.ofList_toList (s := si.path),none])
  obtain ⟨above,up⟩ := parentPaths_some nonempty
  have hierarchy := GetPolicyHierarchy_eq path up own
  obtain ⟨rest,split⟩ : ∃ rest, (((si.path.toList :: above).flatMap fun p => policiesFor sorting rep { si with path := String.ofList p }) ++
      policiesFor sorting rep ⟨si.host,si.userName,""⟩ ++ policiesFor sorting rep ⟨si.host,"",""⟩ ++
      policiesFor sorting rep GlobalPolicySourceInfo) = policiesFor sorting rep si ++ rest := by
    rw [List.flatMap_cons,String.ofList_toList]
    exact ⟨_,by rw [List.append_assoc,List.append_assoc,List.append_assoc]⟩
  refine ⟨si.path.toList :: above,rest,up,hierarchy,split,?_⟩
  rw [GetEffectivePolicy,hierarchy,split]
  rfl

/-- The effective policy has what the latest one for the source sets if no older one for it sets something else or is without
parent, for commands of folders if no policy up to the global one is without parent, and never the flag for that itself; and the
directories are listed unless the first name is a colon. -/
theorem GetEffectivePolicy_agrees (sorting : Sorting) (rep : Repository) {si : SourceInfo} (path : si.path ≠ "") {p : Policy}
    (defined : GetDefinedPolicy sorting rep si = .ok p) :
    ∃ paths policies effective definition,
      parentPaths si.path.toList = some paths ∧
      GetPolicyHierarchy sorting rep si = .ok policies ∧
      policies = (paths.flatMap fun p => policiesFor sorting rep { si with path := String.ofList p }) ++
        policiesFor sorting rep ⟨si.host,si.userName,""⟩ ++ policiesFor sorting rep ⟨si.host,"",""⟩ ++
        policiesFor sorting rep GlobalPolicySourceInfo ∧
      GetEffectivePolicy sorting rep si = .ok (effective,definition) ∧
      ((∀ s ∈ settings, s.Agrees p effective) ∧ UpToRoot si.path.toList paths ↔
        (∀ s ∈ inheritedSettings, s.isSet (s.value p) = true → FirstAgrees s (policiesFor sorting rep si) p) ∧
        (∀ s ∈ folderSettings, s.isSet (s.value p) = true →
          (∀ q ∈ policies, q.noParent = false) ∧ ∀ first ∈ (policiesFor sorting rep si).head?, s.value first = s.value p) ∧
        p.noParent = false ∧
        ∀ vol names, Clean vol names → si.path.toList = joined vol names → ¬ColonFirst si.path.toList) := by
  obtain ⟨latest,isLatest,rfl⟩ := GetDefinedPolicy_latest defined
  have inside : policyOf rep latest ∈ policiesFor sorting rep si := List.mem_map_of_mem isLatest.member
  obtain ⟨paths,rest,up,hierarchy,split,effective⟩ := GetEffectivePolicy_own path (List.ne_nil_of_mem isLatest.member)
  refine ⟨paths,_,(MergePolicies (policiesFor sorting rep si ++ rest) si).1,
    (MergePolicies (policiesFor sorting rep si ++ rest) si).2,up,hierarchy,rfl,effective,?_⟩
  rw [UpToRoot_iff up,split]
  have alone : noParentSetting.Agrees (policyOf rep latest) (MergePolicies (policiesFor sorting rep si ++ rest) si).1 ↔
      (policyOf rep latest).noParent = false := by
    have unset := MergePolicies_noParent (policiesFor sorting rep si ++ rest) si
    unfold Setting.Agrees noParentSetting
    dsimp only
    rw [unset]
    cases (policyOf rep latest).noParent with
    | true => simp
    | false => simp
  have merged := forall₂_congr fun s member => inherited_agrees_iff (s := s) member inside rest si
  have folders := forall₂_congr fun s member => @folder_agrees_iff s member _ rest _ inside si
  rw [settings,List.forall_mem_append,List.forall_mem_append,List.forall_mem_singleton,merged,folders,alone]
  simp only [and_assoc]

def source : SourceInfo := ⟨"h","u","/p"⟩

/-- A policy for the source that only sets the compressor. -/
def compressing (id : String) (time : Int) (name : String) : PolicyManifest where
  metadata := ⟨id,0,LabelsForSource source,time⟩
  policy := { Policy.blank .empty with compression := ⟨name,[],false,[],false,0,0⟩ }

/-- Two clients wrote a policy for the same source. -/
def twice : Repository where
  manifests := [compressing "a" 1 "zstd",compressing "b" 2 "gzip"]
  nodup := by decide

theorem twice_found : FindManifests .stable twice (LabelsForSource source) =
    [(compressing "a" 1 "zstd").metadata,(compressing "b" 2 "gzip").metadata] := by
  have both : (twice.manifests.map fun m => m.metadata).filter (fun md => matchesLabels md.Labels (LabelsForSource source)) =
      [(compressing "a" 1 "zstd").metadata,(compressing "b" 2 "gzip").metadata] := by
    have own : matchesLabels (LabelsForSource source) (LabelsForSource source) = true := by decide
    simp [twice,compressing,own]
  rw [FindManifests,both]
  exact List.mergeSort_of_pairwise (by decide)

theorem twice_defined : GetDefinedPolicy .stable twice source = .ok (policyOf twice (compressing "b" 2 "gzip").metadata) := by
  have second : (compressing "b" 2 "gzip").metadata ∈ FindManifests .stable twice (LabelsForSource source) := by
    rw [twice_found]
    simp
  rw [← (load_found second).1,GetDefinedPolicy,twice_found]
  rfl

theorem GetEffectivePolicy_disagrees : ¬∀ sorting rep si p, si.path ≠ "" → GetDefinedPolicy sorting rep si = .ok p →
    ∀ effective definition, GetEffectivePolicy sorting rep si = .ok (effective,definition) →
      ∀ s ∈ settings, s.Agrees p effective := by
  intro agrees
  have path : source.path ≠ "" := by decide
  have both : policiesFor .stable twice source =
      [policyOf twice (compressing "a" 1 "zstd").metadata,policyOf twice (compressing "b" 2 "gzip").metadata] := by
    rw [policiesFor,twice_found]
    rfl
  obtain ⟨_,rest,_,_,_,effective⟩ := @GetEffectivePolicy_own .stable twice _ path (by rw [twice_found]; simp)
  have compressor := agrees .stable twice source _ path twice_defined
    (MergePolicies (policiesFor .stable twice source ++ rest) source).1 _ effective
    ⟨fun p => p.compression.compressorName,(· != "")⟩ (by simp [settings,inheritedSettings,fields])
  have older : policyOf twice (compressing "a" 1 "zstd").metadata =
      { (compressing "a" 1 "zstd").policy with labels := (LabelsForSource source).set ("id","a") } := rfl
  have newer : policyOf twice (compressing "b" 2 "gzip").metadata =
      { (compressing "b" 2 "gzip").policy with labels := (LabelsForSource source).set ("id","b") } := rfl
  rw [inherited_agrees_iff (by simp [inheritedSettings,fields]) (by rw [both]; simp) rest source,both,older,newer] at compressor
  obtain ⟨q,first,same⟩ := compressor rfl
  simp [upTo,compressing,Policy.blank] at first
  simp [← first,compressing] at same

theorem GetEffectivePolicy_agrees_twice : ∃ policies, GetPolicyHierarchy .stable twice source = .ok policies := by
  obtain ⟨_,policies,_,_,_,hierarchy,_⟩ := GetEffectivePolicy_agrees .stable twice (by decide) twice_defined
  exact ⟨policies,hierarchy⟩

end Settings

end Vbe.Policies
