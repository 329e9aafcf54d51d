import Vbe.Auth.Authorizer
import Mathlib.Data.List.Infix
import Mathlib.Order.Bounds.Defs

/-! Names that stand for the user and the host in the labels of an access control list. -/
namespace Vbe.Auth
open Vbe.Library

abbrev valueValidatorFunc := Text → Except Text Unit

def nonEmptyString : valueValidatorFunc := fun v => if v = [] then .error "must be non-empty".toList else .ok ()

def oneOf (allowed : List Text) : valueValidatorFunc := fun v =>
  if v ∈ allowed then .ok () else .error ("must be one of: ".toList ++ ", ".toList.intercalate allowed)

def aclManifestType : Text := "acl".toList

def SnapshotManifestType : Text := "snapshot".toList

def UserManifestType : Text := "user".toList

def PathLabel : Text := "path".toList

def UsernameAtHostnameLabel : Text := "username".toList

def PolicyTypeUser : Text := "user".toList

def PolicyTypePath : Text := "path".toList

/-- `allowedLabelsForType`, under their names in order. -/
def allowedLabelsForType : List (Text × List (Text × valueValidatorFunc)) := [
  (aclManifestType,[]),
  (ContentManifestType,[]),
  (policyManifestType,[
    (HostnameLabel,nonEmptyString),
    (PathLabel,nonEmptyString),
    (PolicyTypeLabel,oneOf [PolicyTypeGlobal,PolicyTypeHost,PolicyTypeUser,PolicyTypePath]),
    (UsernameLabel,nonEmptyString)]),
  (SnapshotManifestType,[
    (HostnameLabel,nonEmptyString),
    (PathLabel,nonEmptyString),
    (UsernameLabel,nonEmptyString)]),
  (UserManifestType,[
    (UsernameAtHostnameLabel,nonEmptyString)])]

def names {α : Type} (m : List (Text × α)) : Text := ", ".toList.intercalate (m.map Prod.fst)

/-- The error for one label of a target. -/
def validateLabel (typ : Text) (allowedLabels : List (Text × valueValidatorFunc)) (label : Text × Text) : Except Text Unit :=
  if label.1 = TypeLabelKey then .ok ()
  else match allowedLabels.lookup label.1 with
    | none => .error ("unsupported label '".toList ++ label.1 ++ "' for type '".toList ++ typ ++ "', must be one of: ".toList ++
        names allowedLabels)
    | some val => (val label.2).mapError fun err =>
        "invalid label '".toList ++ label.1 ++ "=".toList ++ label.2 ++ "' for type '".toList ++ typ ++ "': ".toList ++ err

def Entry.Validate (e : Entry) : Except Text Unit :=
  if (e.User.splitOn '@').length ≠ 2 then .error "user must be 'username@hostname' possibly including wildcards".toList
  else if value e.Target TypeLabelKey = [] then .error ("ACL target must have a '".toList ++ TypeLabelKey ++ "' label".toList)
  else match allowedLabelsForType.lookup (value e.Target TypeLabelKey) with
    | none => .error ("invalid '".toList ++ TypeLabelKey ++ "' label, must be one of: ".toList ++ names allowedLabelsForType)
    | some allowedLabels => do
      e.Target.values.forM (validateLabel (value e.Target TypeLabelKey) allowedLabels)
      if e.Access < AccessLevelNone ∨ AccessLevelFull < e.Access then .error "valid access level must be specified".toList else .ok ()

section Replacing
variable {old new s : Text}

/-- Texts can be read from the left as a search for the old text does. -/
theorem replacing {P : Text → Prop} (nonempty : old ≠ []) (nil : P []) (found : ∀ s, P s → P (old ++ s))
    (skip : ∀ c s, ¬ old <+: c :: s → P s → P (c :: s)) (s : Text) : P s := by
  induction length : s.length using Nat.strongRecOn generalizing s with
  | ind n ih =>
    cases s with
    | nil => exact nil
    | cons c rest =>
      by_cases here : old <+: c :: rest
      · obtain ⟨after,split⟩ := here
        have shorter : after.length < n := by
          have total := congrArg List.length split
          have positive := List.length_pos_iff.mpr nonempty
          rw [List.length_append] at total
          omega
        rw [← split]
        exact found after (ih after.length shorter after rfl)
      · refine skip c rest here (ih rest.length ?_ rest rfl)
        rw [← length,List.length_cons]
        exact Nat.lt_succ_self _

theorem replaceFrom_drop (n : Nat) (s : Text) : replaceFrom old new n s = ReplaceAll (s.drop n) old new := by
  induction s generalizing n with
  | nil => simp [ReplaceAll,replaceFrom]
  | cons c s ih =>
    cases n with
    | zero => rfl
    | succ n => exact ih n

@[simp] theorem ReplaceAll_nil : ReplaceAll [] old new = [] := by rw [ReplaceAll,replaceFrom]

theorem ReplaceAll_found (nonempty : old ≠ []) (s : Text) : ReplaceAll (old ++ s) old new = new ++ ReplaceAll s old new := by
  obtain ⟨c,rest,rfl⟩ := List.exists_cons_of_ne_nil nonempty
  have here : (c :: rest).isPrefixOf (c :: (rest ++ s)) = true := List.isPrefixOf_iff_prefix.mpr (List.prefix_append _ _)
  rw [ReplaceAll,List.cons_append,replaceFrom,if_pos here,replaceFrom_drop]
  simp

theorem ReplaceAll_skip {c : Char} (absent : ¬ old <+: c :: s) : ReplaceAll (c :: s) old new = c :: ReplaceAll s old new := by
  rw [ReplaceAll,replaceFrom,if_neg (fun here => absent (List.isPrefixOf_iff_prefix.mp here)),ReplaceAll]

theorem ReplaceAll_whole (nonempty : old ≠ []) : ReplaceAll old old new = new := by
  have whole : ReplaceAll (old ++ []) old new = new ++ ReplaceAll [] old new := ReplaceAll_found nonempty []
  rwa [List.append_nil,ReplaceAll_nil,List.append_nil] at whole

theorem ReplaceAll_absent (absent : ¬ old <:+: s) : ReplaceAll s old new = s := by
  induction s with
  | nil => rw [ReplaceAll_nil]
  | cons c s ih =>
    rw [ReplaceAll_skip (fun here => absent here.isInfix),ih (fun inside => absent (List.infix_cons inside))]

theorem ReplaceAll_same (nonempty : old ≠ []) (s : Text) : ReplaceAll s old old = s := by
  induction s using replacing nonempty with
  | nil => rw [ReplaceAll_nil]
  | found s ih => rw [ReplaceAll_found nonempty,ih]
  | skip c s absent ih => rw [ReplaceAll_skip absent,ih]

/-- What is replaced does not reach over a character that is not in it. -/
theorem prefix_before {c : Char} (outside : c ∉ old) {a b : Text} (here : old <+: a ++ c :: b) : old <+: a := by
  rcases List.prefix_or_prefix_of_prefix here (List.prefix_append a (c :: b)) with inside | ⟨more,rfl⟩
  · exact inside
  · cases more with
    | nil => simp
    | cons d more =>
      obtain ⟨same,_⟩ := List.cons_prefix_cons.mp ((List.prefix_append_right_inj a).mp here)
      exact absurd (by simp [same]) outside

theorem ReplaceAll_around {c : Char} (nonempty : old ≠ []) (outside : c ∉ old) (a b : Text) :
    ReplaceAll (a ++ c :: b) old new = ReplaceAll a old new ++ c :: ReplaceAll b old new := by
  induction a using replacing nonempty with
  | nil =>
    refine ReplaceAll_skip fun here => nonempty ?_
    exact List.prefix_nil.mp (prefix_before (a := []) outside here)
  | found a ih => rw [List.append_assoc,ReplaceAll_found nonempty,ReplaceAll_found nonempty,ih,List.append_assoc]
  | skip d a absent ih =>
    have clear : ¬ old <+: d :: (a ++ c :: b) := fun here => absent (prefix_before (a := d :: a) outside here)
    rw [List.cons_append,ReplaceAll_skip clear,ReplaceAll_skip absent,ih,List.cons_append]

/-- A longer new text makes a text longer, and a shorter one makes it shorter. -/
theorem length_ReplaceAll (nonempty : old ≠ []) (new s : Text) :
    (old.length ≤ new.length → s.length ≤ (ReplaceAll s old new).length) ∧
      (new.length ≤ old.length → (ReplaceAll s old new).length ≤ s.length) := by
  induction s using replacing nonempty with
  | nil => simp
  | found s ih =>
    rw [ReplaceAll_found nonempty,List.length_append,List.length_append]
    exact ⟨fun longer => Nat.add_le_add longer (ih.1 longer),fun shorter => Nat.add_le_add shorter (ih.2 shorter)⟩
  | skip c s absent ih =>
    rw [ReplaceAll_skip absent,List.length_cons,List.length_cons]
    exact ⟨fun longer => Nat.succ_le_succ (ih.1 longer),fun shorter => Nat.succ_le_succ (ih.2 shorter)⟩

/-- A text in which the old text occurs is only left alone if the new text is the old one. -/
theorem eq_of_ReplaceAll (nonempty : old ≠ []) (inside : old <:+: s) (same : ReplaceAll s old new = s) : new = old := by
  induction s using replacing nonempty with
  | nil => exact absurd (List.infix_nil.mp inside) nonempty
  | found s _ =>
    rw [ReplaceAll_found nonempty] at same
    have total := congrArg List.length same
    rw [List.length_append,List.length_append] at total
    obtain ⟨longer,shorter⟩ := length_ReplaceAll nonempty new s
    exact (List.append_inj same (by omega)).1
  | skip c s absent ih =>
    rw [ReplaceAll_skip absent] at same
    rcases List.infix_cons_iff.mp inside with here | later
    · exact absurd here absent
    · exact ih later (List.cons.inj same).2

theorem ReplaceAll_eq_self_iff (nonempty : old ≠ []) : ReplaceAll s old new = s ↔ ¬ old <:+: s ∨ new = old := by
  constructor
  · intro same
    by_cases inside : old <:+: s
    · exact .inr (eq_of_ReplaceAll nonempty inside same)
    · exact .inl inside
  · rintro (absent | rfl)
    · exact ReplaceAll_absent absent
    · exact ReplaceAll_same nonempty s

end Replacing

/-- The value of a label that is to be taken as it is, or stands for the names of the user. -/
def Plain (v : Text) : Prop := (¬ OwnUser <:+: v ∧ ¬ OwnHost <:+: v) ∨ v = OwnUser ∨ v = OwnHost ∨ v = OwnUser ++ '@' :: OwnHost

/-- What a plain value stands for. -/
def substitute (username hostname v : Text) : Text :=
  if v = OwnUser then username
  else if v = OwnHost then hostname
  else if v = OwnUser ++ '@' :: OwnHost then username ++ '@' :: hostname
  else v

/-- A pattern fits a user and a host. -/
def Fits (pattern username hostname : Text) : Prop :=
  ∃ user host, pattern = user ++ '@' :: host ∧ (user = ['*'] ∨ user = username) ∧ (host = ['*'] ∨ host = hostname)

/-- An entry is about a user, a host and a target. -/
def Applies (e : Entry) (username hostname : Text) (target : Labels) : Prop :=
  Fits e.User username hostname ∧ ∀ label ∈ e.Target.values, value target label.1 = substitute username hostname label.2

/-- An entry that is accepted, with plain values. -/
def Proper (e : Entry) : Prop := e.Validate = .ok () ∧ ∀ label ∈ e.Target.values, Plain label.2

/-- Proper entries give a user what they say about them, and under their own names only. -/
structure Isolated (username hostname : Text) : Prop where
  highest : ∀ (entries : List Entry) (target : Labels), (∀ e ∈ entries, Proper e) →
    IsGreatest (insert AccessLevelNone {level | ∃ e ∈ entries, Applies e username hostname target ∧ e.Access = level})
      (EffectivePermissions username hostname target entries)
  own : ∀ (e : Entry) (target : Labels) (userLabel hostLabel : Text), Proper e → (userLabel,OwnUser) ∈ e.Target.values →
    (hostLabel,OwnHost) ∈ e.Target.values → EffectivePermissions username hostname target [e] ≠ AccessLevelNone →
    value target userLabel = username ∧ value target hostLabel = hostname

section Substituting
variable {username hostname v : Text}

theorem OwnUser_ne_nil : OwnUser ≠ [] := by decide

theorem OwnHost_ne_nil : OwnHost ≠ [] := by decide

/-- The name of the user has had the host put into it, and nothing else has gone wrong. -/
theorem replaced_OwnUser : ReplaceAll (ReplaceAll OwnUser OwnUser username) OwnHost hostname = ReplaceAll username OwnHost hostname := by
  rw [ReplaceAll_whole OwnUser_ne_nil]

theorem replaced_plain (plain : Plain v) (steady : ReplaceAll username OwnHost hostname = username) :
    ReplaceAll (ReplaceAll v OwnUser username) OwnHost hostname = substitute username hostname v := by
  have untouched : ReplaceAll OwnHost OwnUser username = OwnHost := ReplaceAll_absent (by decide)
  rcases plain with ⟨noUser,noHost⟩ | rfl | rfl | rfl
  · have user : v ≠ OwnUser := fun same => noUser (same ▸ List.infix_refl _)
    have host : v ≠ OwnHost := fun same => noHost (same ▸ List.infix_refl _)
    have both : v ≠ OwnUser ++ '@' :: OwnHost := fun same => noUser (same ▸ (List.prefix_append _ _).isInfix)
    rw [ReplaceAll_absent noUser,ReplaceAll_absent noHost,substitute,if_neg user,if_neg host,if_neg both]
  · rw [replaced_OwnUser,steady,substitute,if_pos rfl]
  · rw [untouched,ReplaceAll_whole OwnHost_ne_nil,substitute,if_neg (by decide),if_pos rfl]
  · rw [ReplaceAll_around OwnUser_ne_nil (by decide),ReplaceAll_whole OwnUser_ne_nil,untouched,
      ReplaceAll_around OwnHost_ne_nil (by decide),steady,ReplaceAll_whole OwnHost_ne_nil,substitute,if_neg (by decide),
      if_neg (by decide),if_pos rfl]

end Substituting

section Highest
variable {username hostname : Text} {target : Labels} {entries : List Entry}

/-- One round of the loop over the entries. -/
def highestAfter (username hostname : Text) (target : Labels) (highest : AccessLevel) (e : Entry) : AccessLevel :=
  if !userMatches e.User username hostname then highest
  else if !e.Target.Matches target username hostname then highest
  else if e.Access > highest then e.Access
  else highest

/-- A round keeps the level, or raises it to that of the entry. -/
theorem highestAfter_cases (highest : AccessLevel) {e : Entry}
    (applies : (userMatches e.User username hostname && e.Target.Matches target username hostname) = true ↔ Applies e username hostname target) :
    highestAfter username hostname target highest e = highest ∧ (Applies e username hostname target → e.Access ≤ highest) ∨
      Applies e username hostname target ∧ highestAfter username hostname target highest e = e.Access ∧ highest ≤ e.Access := by
  rw [highestAfter]
  by_cases user : userMatches e.User username hostname = true
  · by_cases labels : e.Target.Matches target username hostname = true
    · by_cases higher : e.Access > highest
      · exact .inr ⟨applies.mp (by rw [user,labels]; rfl),by simp [user,labels,higher],Nat.le_of_lt higher⟩
      · exact .inl ⟨by simp [user,labels,higher],fun _ => Nat.le_of_not_lt higher⟩
    · refine .inl ⟨by simp [labels],fun does => absurd ?_ labels⟩
      exact ((Bool.and_eq_true_iff).mp (applies.mpr does)).2
  · refine .inl ⟨by simp [user],fun does => absurd ?_ user⟩
    exact ((Bool.and_eq_true_iff).mp (applies.mpr does)).1

theorem rounds_highest (start : AccessLevel) (applies : ∀ e ∈ entries,
      (userMatches e.User username hostname && e.Target.Matches target username hostname) = true ↔ Applies e username hostname target) :
    IsGreatest (insert start {level | ∃ e ∈ entries, Applies e username hostname target ∧ e.Access = level})
      (entries.foldl (highestAfter username hostname target) start) := by
  induction entries generalizing start with
  | nil =>
    refine ⟨.inl rfl,fun level member => ?_⟩
    rcases member with rfl | ⟨e,absent,_⟩
    · exact Nat.le_refl _
    · exact absurd absent List.not_mem_nil
  | cons e entries ih =>
    obtain ⟨reached,bound⟩ := ih (highestAfter username hostname target start e) fun e member => applies e (List.mem_cons_of_mem _ member)
    have next := bound (.inl rfl)
    have round := highestAfter_cases start (applies e List.mem_cons_self)
    rw [List.foldl_cons]
    constructor
    · rcases reached with same | ⟨e',member,does,level⟩
      · rcases round with ⟨kept,_⟩ | ⟨does,raised,_⟩
        · exact .inl (same.trans kept)
        · exact .inr ⟨e,List.mem_cons_self,does,(same.trans raised).symm⟩
      · exact .inr ⟨e',List.mem_cons_of_mem _ member,does,level⟩
    · intro level member
      rcases member with rfl | ⟨e',member,does,rfl⟩
      · rcases round with ⟨kept,_⟩ | ⟨_,raised,lower⟩
        · exact Nat.le_trans (Nat.le_of_eq kept.symm) next
        · exact Nat.le_trans lower (Nat.le_trans (Nat.le_of_eq raised.symm) next)
      · rcases List.mem_cons.mp member with rfl | later
        · rcases round with ⟨kept,lower⟩ | ⟨_,raised,_⟩
          · exact Nat.le_trans (lower does) (Nat.le_trans (Nat.le_of_eq kept.symm) next)
          · exact Nat.le_trans (Nat.le_of_eq raised.symm) next
        · exact bound (.inr ⟨e',later,does,rfl⟩)

end Highest

section Main
variable {username hostname : Text} {target : Labels}

theorem matchOrWildcard_iff {rule actual : Text} : matchOrWildcard rule actual ↔ rule = ['*'] ∨ rule = actual := by
  simp [matchOrWildcard]

theorem userMatches_iff {pattern : Text} (user : '@' ∉ username) (host : '@' ∉ hostname) :
    userMatches pattern username hostname ↔ Fits pattern username hostname := by
  constructor
  · intro does
    rw [userMatches] at does
    split at does
    next u h parts =>
      obtain ⟨first,second⟩ := Bool.and_eq_true_iff.mp does
      refine ⟨u,h,?_,matchOrWildcard_iff.mp first,matchOrWildcard_iff.mp second⟩
      have joined : ['@'].intercalate (pattern.splitOn '@') = pattern := List.intercalate_splitOn '@'
      rw [← joined,parts]
      simp [List.intercalate]
    next => exact absurd does Bool.false_ne_true
  · rintro ⟨u,h,rfl,first,second⟩
    have clean : '@' ∉ u := by
      rcases first with rfl | rfl
      · decide
      · exact user
    have clean' : '@' ∉ h := by
      rcases second with rfl | rfl
      · decide
      · exact host
    rw [userMatches,List.splitOn_append_cons_self_of_not_mem clean,List.splitOn_eq_singleton clean']
    exact Bool.and_eq_true_iff.mpr ⟨matchOrWildcard_iff.mpr first,matchOrWildcard_iff.mpr second⟩

theorem Matches_iff {r : TargetRule} (plain : ∀ label ∈ r.values, Plain label.2) (steady : ReplaceAll username OwnHost hostname = username) :
    r.Matches target username hostname ↔ ∀ label ∈ r.values, value target label.1 = substitute username hostname label.2 := by
  rw [TargetRule.Matches,List.all_eq_true]
  refine forall₂_congr fun label member => ?_
  rw [decide_eq_true_iff,replaced_plain (plain label member) steady]

/-- Everybody may do anything with the snapshots of a user of their name. -/
def ownSnapshots : Entry :=
  ⟨[],"*@*".toList,(Keyed.empty.set (TypeLabelKey,SnapshotManifestType)).set (UsernameLabel,OwnUser),AccessLevelFull⟩

/-- The labels of snapshots of a user. -/
def snapshotsOf (username : Text) : Labels := (Keyed.empty.set (TypeLabelKey,SnapshotManifestType)).set (UsernameLabel,username)

theorem ownSnapshots_proper : Proper ownSnapshots := by
  refine ⟨by decide,fun label member => ?_⟩
  have member : label ∈ [(TypeLabelKey,SnapshotManifestType),(UsernameLabel,OwnUser)] := member
  rcases List.mem_pair.mp member with rfl | rfl
  · exact .inl ⟨by decide,by decide⟩
  · exact .inr (.inl rfl)

theorem substitute_OwnUser : substitute username hostname OwnUser = username := by rw [substitute,if_pos rfl]

theorem substitute_OwnHost : substitute username hostname OwnHost = hostname := by rw [substitute,if_neg (by decide),if_pos rfl]

/-- What an entry gives on its own, it gives because it is about the user, the host and the target. -/
theorem applies_of_granted {e : Entry} (granted : EffectivePermissions username hostname target [e] ≠ AccessLevelNone)
    (greatest : IsGreatest (insert AccessLevelNone {level | ∃ e' ∈ [e], Applies e' username hostname target ∧ e'.Access = level})
      (EffectivePermissions username hostname target [e])) : Applies e username hostname target := by
  rcases greatest.1 with none | ⟨e',member,applies,_⟩
  · exact absurd none granted
  · exact List.mem_singleton.mp member ▸ applies

theorem ownSnapshots_granted : EffectivePermissions username hostname (snapshotsOf (ReplaceAll username OwnHost hostname)) [ownSnapshots] =
    AccessLevelFull := by
  have everybody : userMatches ownSnapshots.User username hostname = true := by
    have parts : ownSnapshots.User.splitOn '@' = [['*'],['*']] := by decide
    rw [userMatches,parts]
    rfl
  have type : ReplaceAll (ReplaceAll SnapshotManifestType OwnUser username) OwnHost hostname = SnapshotManifestType := by
    rw [ReplaceAll_absent (s := SnapshotManifestType) (by decide),ReplaceAll_absent (by decide)]
  have labels : ownSnapshots.Target.Matches (snapshotsOf (ReplaceAll username OwnHost hostname)) username hostname = true := by
    rw [TargetRule.Matches,List.all_eq_true]
    intro label member
    have member : label ∈ [(TypeLabelKey,SnapshotManifestType),(UsernameLabel,OwnUser)] := member
    rw [decide_eq_true_iff]
    rcases List.mem_pair.mp member with rfl | rfl
    · exact type.symm
    · exact replaced_OwnUser.symm
  rw [EffectivePermissions,List.foldl_cons,everybody,labels]
  rfl

/-- A user gets at the snapshots of a user of their name only if the host is not put into it. -/
theorem Isolated.steady (isolated : Isolated username hostname) : ReplaceAll username OwnHost hostname = username := by
  have greatest := isolated.highest [ownSnapshots] (snapshotsOf (ReplaceAll username OwnHost hostname)) fun e member =>
    List.mem_singleton.mp member ▸ ownSnapshots_proper
  have granted : EffectivePermissions username hostname (snapshotsOf (ReplaceAll username OwnHost hostname)) [ownSnapshots] ≠ AccessLevelNone :=
    fun none => absurd (ownSnapshots_granted.symm.trans none) (by decide)
  have own := (applies_of_granted granted greatest).2 (UsernameLabel,OwnUser) (by simp [ownSnapshots,Keyed.set])
  exact own.trans substitute_OwnUser

theorem isolated_iff (user : '@' ∉ username) (host : '@' ∉ hostname) :
    Isolated username hostname ↔ ¬ OwnHost <:+: username ∨ hostname = OwnHost := by
  rw [← ReplaceAll_eq_self_iff OwnHost_ne_nil]
  constructor
  · exact Isolated.steady
  intro steady
  have applies (target : Labels) {e : Entry} (proper : Proper e) :
      (userMatches e.User username hostname && e.Target.Matches target username hostname) = true ↔ Applies e username hostname target := by
    rw [Bool.and_eq_true_iff,userMatches_iff user host,Matches_iff proper.2 steady,Applies]
  have highest (entries : List Entry) (target : Labels) (proper : ∀ e ∈ entries, Proper e) :
      IsGreatest (insert AccessLevelNone {level | ∃ e ∈ entries, Applies e username hostname target ∧ e.Access = level})
        (EffectivePermissions username hostname target entries) :=
    rounds_highest AccessLevelNone fun e member => applies target (proper e member)
  refine ⟨highest,fun e target userLabel hostLabel proper own own' granted => ?_⟩
  have alone := highest [e] target fun e' member => List.mem_singleton.mp member ▸ proper
  have labels := (applies_of_granted granted alone).2
  exact ⟨(labels _ own).trans substitute_OwnUser,(labels _ own').trans substitute_OwnHost⟩

theorem isolated_some : Isolated "a".toList "b".toList := (isolated_iff (by decide) (by decide)).mpr (.inl (by decide))

/-- A user who is called like the placeholder for the host gets at the snapshots of the user who is called like the host. -/
theorem not_isolated : EffectivePermissions OwnHost "alice".toList (snapshotsOf "alice".toList) [ownSnapshots] = AccessLevelFull ∧
    ¬ ∀ username hostname, '@' ∉ username → '@' ∉ hostname → Isolated username hostname := by
  refine ⟨by decide,fun isolated => ?_⟩
  have others := (isolated OwnHost "alice".toList (by decide) (by decide)).steady
  exact absurd others (by decide)

end Main

end Vbe.Auth
