import Vbe.Auth.Acl

/-! Authorization by the access control lists of the repository that a server serves, which may change. -/
namespace Vbe.Auth

def policyManifestType : Text := "policy".toList

def PolicyTypeLabel : Text := "policyType".toList

def PolicyTypeGlobal : Text := "global".toList

def PolicyTypeHost : Text := "host".toList

def UsernameLabel : Text := "username".toList

def HostnameLabel : Text := "hostname".toList

abbrev Time := Int

abbrev Duration := Int

/-- `time.Time{}`, in nanoseconds. -/
def zeroTime : Time := -62135596800000000000

def ContentRule : TargetRule := Library.Keyed.empty.set (TypeLabelKey,ContentManifestType)

inductive AuthorizationInfo
  | NoAccess
  | legacyAuthorizationInfo (usernameAtHostname : Text)
  | aclEntriesAuthorizer (entries : List Entry) (username hostname : Text)

namespace AuthorizationInfo

def ContentAccessLevel : AuthorizationInfo → AccessLevel
  | NoAccess => AccessLevelNone
  | legacyAuthorizationInfo _ => AccessLevelFull
  | aclEntriesAuthorizer entries username hostname => EffectivePermissions username hostname ContentRule entries

def ManifestAccessLevel (labels : Labels) : AuthorizationInfo → AccessLevel
  | NoAccess => AccessLevelNone
  | legacyAuthorizationInfo usernameAtHostname =>
    if value labels TypeLabelKey = policyManifestType ∧ value labels PolicyTypeLabel = PolicyTypeGlobal then AccessLevelRead
    else if value labels TypeLabelKey = policyManifestType ∧ value labels PolicyTypeLabel = PolicyTypeHost ∧
        (['@'] ++ value labels HostnameLabel).isSuffixOf usernameAtHostname then AccessLevelRead
    else if value labels UsernameLabel ++ ['@'] ++ value labels HostnameLabel = usernameAtHostname then AccessLevelFull
    else AccessLevelNone
  | aclEntriesAuthorizer entries username hostname => EffectivePermissions username hostname labels entries

end AuthorizationInfo

variable {Repository : Type} [DecidableEq Repository]

structure aclCache (Repository : Type) where
  aclRefreshFrequency : Duration
  lastRep : Option Repository
  nextRefreshTime : Time
  aclEntries : List Entry

def defaultACLRefreshFrequency : Duration := 10 * 1000000000

def DefaultAuthorizer : aclCache Repository := ⟨defaultACLRefreshFrequency,none,zeroTime,[]⟩

/-- What a user may do by the entries, or by the rules of before there were any. -/
def authorizationInfo (aclEntries : List Entry) (usernameAtHostname u h : Text) : AuthorizationInfo :=
  if aclEntries.length = 0 then .legacyAuthorizationInfo usernameAtHostname
  else .aclEntriesAuthorizer (EntriesForUser aclEntries u h) u h

namespace aclCache

/-- The comparison with the last repository is for equality in the source. -/
def discarded (ac : aclCache Repository) (rep : Option Repository) : aclCache Repository :=
  if rep = ac.lastRep then { ac with aclEntries := [], lastRep := rep, nextRefreshTime := zeroTime } else ac

/-- Whether the entries are due to be refreshed, by the first of two readings of the clock. -/
def Due (ac : aclCache Repository) (rep : Option Repository) (now : Time) : Prop := now > (ac.discarded rep).nextRefreshTime

instance decidableDue (ac : aclCache Repository) (rep : Option Repository) (now : Time) : Decidable (ac.Due rep now) :=
  inferInstanceAs (Decidable (now > (ac.discarded rep).nextRefreshTime))

def refreshed (ac : aclCache Repository) (rep : Option Repository) (now now' : Time) (manifests : Manifests) : aclCache Repository :=
  let discarded := ac.discarded rep
  if ac.Due rep now then { discarded with
    nextRefreshTime := now' + ac.aclRefreshFrequency
    aclEntries := (LoadEntries rep manifests discarded.aclEntries).getD discarded.aclEntries }
  else discarded

/-- The clock reads `now` and then `now'`. -/
def Authorize (ac : aclCache Repository) (rep : Option Repository) (usernameAtHostname : Text) (now now' : Time) (manifests : Manifests) :
    aclCache Repository × AuthorizationInfo :=
  match usernameAtHostname.splitOn '@' with
  | [u,h] =>
    let ac := ac.refreshed rep now now' manifests
    (ac,authorizationInfo ac.aclEntries usernameAtHostname u h)
  | _ => (ac,.NoAccess)

def Refresh (ac : aclCache Repository) : aclCache Repository := { ac with nextRefreshTime := zeroTime }

end aclCache

end Vbe.Auth
