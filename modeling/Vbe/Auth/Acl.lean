import Vbe.Library.Keyed

/-! Access control lists, which are manifests of a repository. -/
namespace Vbe.Auth
open Vbe.Library

abbrev Text := List Char

/-- The rest of a replacement, after as many characters of what has been replaced. -/
def replaceFrom (old new : Text) : Nat → Text → Text
  | _, [] => []
  | passed + 1, _ :: rest => replaceFrom old new passed rest
  | 0, c :: rest =>
    if old.isPrefixOf (c :: rest) then new ++ replaceFrom old new (old.length - 1) rest else c :: replaceFrom old new 0 rest

/-- `strings.ReplaceAll`, of a text that is not empty. -/
def ReplaceAll (s old new : Text) : Text := replaceFrom old new 0 s

abbrev Labels := Keyed (Prod.fst : Text × Text → Text)

/-- The value under a key, empty if there is none. -/
def value (labels : Labels) (key : Text) : Text := (labels.get? key).elim [] Prod.snd

def TypeLabelKey : Text := "type".toList

def ContentManifestType : Text := "content".toList

def OwnUser : Text := "OWN_USER".toList

def OwnHost : Text := "OWN_HOST".toList

abbrev AccessLevel := Nat

def AccessLevelNone : AccessLevel := 1

def AccessLevelRead : AccessLevel := 2

def AccessLevelAppend : AccessLevel := 3

def AccessLevelFull : AccessLevel := 4

abbrev TargetRule := Labels

def TargetRule.Matches (r : TargetRule) (target : Labels) (username hostname : Text) : Bool :=
  r.values.all fun rule => value target rule.1 = ReplaceAll (ReplaceAll rule.2 OwnUser username) OwnHost hostname

structure Entry where
  ManifestID : Text
  User : Text
  Target : TargetRule
  Access : AccessLevel

def matchOrWildcard (rule actual : Text) : Bool := rule = ['*'] || rule = actual

def userMatches (rule username hostname : Text) : Bool :=
  match rule.splitOn '@' with
  | [user,host] => matchOrWildcard user username && matchOrWildcard host hostname
  | _ => false

def EntriesForUser (entries : List Entry) (username hostname : Text) : List Entry :=
  entries.filter fun e => userMatches e.User username hostname

def EffectivePermissions (username hostname : Text) (target : Labels) (entries : List Entry) : AccessLevel :=
  entries.foldl (fun highest e =>
    if !userMatches e.User username hostname then highest
    else if !e.Target.Matches target username hostname then highest
    else if e.Access > highest then e.Access
    else highest) AccessLevelNone

/-- What a repository answers about its manifests during a call: which are lists of access, and what each reads as. -/
structure Manifests where
  FindManifests : Option (List Text)
  GetManifest : Text → Option Entry

variable {Repository : Type}

/-- An entry of the old list, the last one under its identifier, is not read again. -/
def LoadEntries (rep : Option Repository) (manifests : Manifests) (old : List Entry) : Option (List Entry) :=
  match rep with
  | none => some []
  | some _ => manifests.FindManifests.bind fun ids => ids.mapM fun id =>
    (old.reverse.find? fun o => o.ManifestID = id).or ((manifests.GetManifest id).map fun p => { p with ManifestID := id })

end Vbe.Auth
