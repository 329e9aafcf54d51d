import Vbe.Wildcard.Match

/-! Directories that hide what ignore rules of policies and of ignore files say. -/
namespace Vbe.IgnoreFS
open Vbe.Wildcard

variable (u : Unicode)

section FileSystem

/-- The name of an entry: a separator or a NUL is in no name. -/
structure Name where
  runes : List Rune
  clean : NUL ∉ runes
  single : '/' ∉ runes

structure Info where
  name : Name
  size : Int
  dev : Nat

/-- A file holds some text, if it can be opened. A directory finds entries by name. -/
inductive Entry
  | file (info : Info) (content : Option (List Rune))
  | directory (info : Info) (child : List Rune → Option Entry)
  | other (info : Info)

def Entry.info : Entry → Info
  | .file info _ => info
  | .directory info _ => info
  | .other info => info

def Entry.isDir : Entry → Bool
  | .directory _ _ => true
  | _ => false

end FileSystem

section Policies

structure FilesPolicy where
  ignoreRules : List (List Rune)
  noParentIgnoreRules : Bool
  dotIgnoreFiles : List (List Rune)
  noParentDotIgnoreFiles : Bool
  maxFileSize : Int
  oneFileSystem : Option Bool

/-- The files policy of each directory, defined for it or inherited. No tree is the default one. -/
inductive Tree
  | node (effective : FilesPolicy) (inherited : Bool) (children : List (List Rune × Tree))

def Tree.effective : Tree → FilesPolicy
  | .node effective _ _ => effective

def Tree.inherited : Tree → Bool
  | .node _ inherited _ => inherited

def Tree.children : Tree → List (List Rune × Tree)
  | .node _ _ children => children

def DefinedPolicy (t : Option Tree) : Option FilesPolicy :=
  t.bind fun t => if t.inherited then none else some t.effective

def Tree.Child (t : Tree) (name : Name) : Tree :=
  if name.runes = ['.'] ∨ name.runes = [] then t
  else
    match t.children.lookup name.runes with
    | some child => child
    | none => if t.children.length = 0 ∧ t.inherited then t else .node t.effective true []

end Policies

section Contexts

inductive IgnoreError
  | policyRule (dirPath : List Rune) (err : PatternError)
  | openFile (name : List Rune)
  | fileRule (name : List Rune) (err : PatternError)
deriving DecidableEq

structure Layer where
  dotIgnoreFiles : List (List Rune)
  matchers : List WildcardMatcher
  maxFileSize : Int
  oneFileSystem : Bool
deriving DecidableEq

/-- A context and its parents, the nearest one first. -/
structure IgnoreContext where
  own : Layer
  parents : List Layer
deriving DecidableEq

structure IgnoreDirectory where
  relativePath : List Rune
  parentContext : IgnoreContext
  policyTree : Option Tree
  dev : Nat
  child : List Rune → Option Entry

def trimLeadingCurrentDir (dir : List Rune) : List Rune :=
  if dir = ['.'] ∨ ['.','/'] <+: dir then dir.drop 1 else dir

/-- A matcher is asked only where a match would change the verdict. -/
def applyMatcher (path : List Rune) (isDir : Bool) (shouldIgnore : Bool) (m : WildcardMatcher) : Option Bool :=
  if ¬ shouldIgnore ∧ ¬ m.negated ∨ shouldIgnore ∧ m.negated then m.Match u (trimLeadingCurrentDir path) isDir
  else some shouldIgnore

/-- Whether the layers, the nearest one first, ignore a path. -/
def shouldIgnore (path : List Rune) (isDir : Bool) : List Layer → Option Bool
  | [] => some false
  | layer :: parents => do
    let above ← shouldIgnore path isDir parents
    layer.matchers.foldlM (applyMatcher u path isDir) above

def IgnoreContext.shouldIncludeByName (c : IgnoreContext) (path : List Rune) (e : Entry) : Option Bool :=
  (shouldIgnore u path e.isDir (c.own :: c.parents)).map not

def combineAndDedupe (slices : List (List (List Rune))) : List (List Rune) :=
  slices.flatten.foldl (fun result it => if it ∈ result then result else result ++ [it]) []

def maxScanTokenSize : Nat := 65536

def bytes (line : List Rune) : Nat := (line.flatMap String.utf8EncodeChar).length

def dropCR (line : List Rune) : List Rune := if line.getLast? = some '\r' then line.dropLast else line

/-- The lines of a text up to the first one that is too long. -/
def scanLines (content : List Rune) : List (List Rune) :=
  let lines := content.splitOn '\n'
  let lines := if lines.getLast? = some [] then lines.dropLast else lines
  (lines.takeWhile (bytes · < maxScanTokenSize)).map dropCR

/-- The matchers of some rules, or the first rule that is none. -/
def parseRules (baseDir : List Rune) : List (List Rune) → Except PatternError (List WildcardMatcher)
  | [] => .ok []
  | rule :: rules => do
    let m ← NewWildcardMatcher u rule ⟨false,trimLeadingCurrentDir baseDir⟩
    return m :: (← parseRules baseDir rules)

def ruleLine (line : List Rune) : Bool := ¬ ['#'] <+: line ∧ ¬ line.all u.IsSpace

def parseIgnoreFile (baseDir : List Rune) (name : List Rune) (content : Option (List Rune)) :
    Except IgnoreError (List WildcardMatcher) :=
  match content with
  | none => .error (.openFile name)
  | some content =>
    (parseRules u (trimLeadingCurrentDir baseDir) ((scanLines content).filter (ruleLine u))).mapError (.fileRule name)

def loadDotIgnoreFiles (dirPath : List Rune) : List (List Rune × Option (List Rune)) → Except IgnoreError (List WildcardMatcher)
  | [] => .ok []
  | (name,content) :: files => do
    let matchers ← parseIgnoreFile u dirPath name content
    return matchers ++ (← loadDotIgnoreFiles dirPath files)

def Layer.overrideFromPolicy (c : Layer) (fp : FilesPolicy) (dirPath : List Rune) : Except IgnoreError Layer := do
  let dotIgnoreFiles := if fp.noParentDotIgnoreFiles then [] else c.dotIgnoreFiles
  let matchers := if fp.noParentIgnoreRules then [] else c.matchers
  let rules ← (parseRules u dirPath fp.ignoreRules).mapError (.policyRule dirPath)
  return {
    dotIgnoreFiles := combineAndDedupe [dotIgnoreFiles,fp.dotIgnoreFiles]
    matchers := matchers ++ rules
    maxFileSize := if fp.maxFileSize ≠ 0 then fp.maxFileSize else c.maxFileSize
    oneFileSystem := fp.oneFileSystem.getD false }

namespace IgnoreDirectory
variable (d : IgnoreDirectory)

/-- The ignore files that are found under some names. -/
def findDotIgnoreFiles (names : List (List Rune)) : List (List Rune × Option (List Rune)) :=
  names.filterMap fun name =>
    match d.child name with
    | some (.file _ content) => some (name,content)
    | _ => none

def buildContext : Except IgnoreError IgnoreContext :=
  let pol := DefinedPolicy d.policyTree
  let effectiveDotIgnoreFiles :=
    match pol with
    | some pol => pol.dotIgnoreFiles
    | none => d.parentContext.own.dotIgnoreFiles
  let dotIgnoreFiles := d.findDotIgnoreFiles effectiveDotIgnoreFiles
  -- no dotfiles and no policy at this level, reuse parent ignore rules
  if dotIgnoreFiles.length = 0 ∧ pol.isNone then .ok d.parentContext
  else do
    let newic : Layer :=
      ⟨effectiveDotIgnoreFiles,[],d.parentContext.own.maxFileSize,d.parentContext.own.oneFileSystem⟩
    let newic ←
      match pol with
      | some pol => newic.overrideFromPolicy u pol d.relativePath
      | none => .ok newic
    let matchers ← loadDotIgnoreFiles u d.relativePath dotIgnoreFiles
    return ⟨{newic with matchers := newic.matchers ++ matchers},d.parentContext.own :: d.parentContext.parents⟩

def entryPath (e : Entry) : List Rune := d.relativePath ++ ['/'] ++ e.info.name.runes

/-- Whether an entry is shown; none where its matching does not return. -/
def included (ic : IgnoreContext) (e : Entry) : Option Bool := do
  let byName ← ic.shouldIncludeByName u (d.entryPath e) e
  let bySize := ¬ (0 < ic.own.maxFileSize ∧ ic.own.maxFileSize < e.info.size)
  let byDevice := ¬ ic.own.oneFileSystem ∨ e.info.dev = d.dev
  return byName ∧ bySize ∧ byDevice

/-- The directory that wraps an entry. -/
def wrap (ic : IgnoreContext) (info : Info) (child : List Rune → Option Entry) : IgnoreDirectory :=
  ⟨d.entryPath (.directory info child),ic,d.policyTree.map (·.Child info.name),info.dev,child⟩

end IgnoreDirectory

def rootContext : IgnoreContext := ⟨⟨[],[],0,false⟩,[]⟩

def New (dev : Nat) (child : List Rune → Option Entry) (policyTree : Option Tree) : IgnoreDirectory :=
  ⟨['.'],rootContext,policyTree,dev,child⟩

end Contexts

end Vbe.IgnoreFS
