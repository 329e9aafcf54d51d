import Vbe.Parallelwork.Queue

/-! The restore of a snapshot tree to an output, by workers that take entries from a queue. A directory is finished when the last
of its entries has been completed. -/
namespace Vbe.Snapshots.Restoring
open Vbe.Library Vbe.Parallelwork

section Trees

/-- An entry of a snapshot: a directory may know its own entry in the one above it. -/
inductive Entry
  | directory (name : String) (hasDirEntry : Bool) (entries : List Entry)
  | file (name : String)
  | symlink (name : String)
  | other (name : String)

namespace Entry

def name : Entry → String
  | directory name _ _ => name
  | file name => name
  | symlink name => name
  | other name => name

def entries : Entry → List Entry
  | directory _ _ entries => entries
  | _ => []

def IsDir : Entry → Bool
  | directory .. => true
  | _ => false

/-- The output answers whether a file or a symbolic link exists. -/
def exists_ (choice : Bool) : Entry → Bool
  | file _ => choice
  | symlink _ => choice
  | _ => false

end Entry

/-- `path.Join` and `filepath.Base`. -/
structure Paths where
  Join : String → String → String
  Base : String → String

def ShallowEntrySuffix : String := ".kopia-entry"

def MaxFilenameLength : Nat := 255

def Paths.SafelySuffixablePath (paths : Paths) (path : String) : Bool :=
  (paths.Base path).utf8ByteSize + ShallowEntrySuffix.utf8ByteSize ≤ MaxFilenameLength

end Trees

section Model

structure Options where
  Parallel : Int
  Incremental : Bool
  IgnoreErrors : Bool
  RestoreDirEntryAtDepth : Int32
  Cancel : Bool

/-- No workers at all, if the number asked for is negative. -/
def numWorkers (numCPU : Nat) (parallelizable : Bool) (options : Options) : Nat :=
  if ¬ parallelizable then 1 else if options.Parallel = 0 then numCPU else options.Parallel.toNat

/-- Which entry of which begun directory is completed; nothing for the root. -/
abbrev Completion := Option (Nat × Nat)

/-- A directory that was begun: what counts its entries, once they are known, and how often it was finished. -/
structure Dir where
  d : Entry
  targetPath : String
  onCompletion : Completion
  left : Option Int
  finished : Nat

inductive Handling
  | cancelled
  | skipped
  | written
  | shallow
  | ignored
deriving DecidableEq

inductive Event
  | began (dir : Nat)
  | finished (dir : Nat)
  | handled (c : Completion) (how : Handling)
deriving DecidableEq

structure Copier where
  dirs : List Dir
  log : List Event

structure Item where
  e : Entry
  targetPath : String
  currentdepth : Int32
  onCompletion : Completion

/-- Where a worker is in the copy of an entry. -/
inductive Place
  | copyEntry (i : Item)
  | incremental (i : Item)
  | copyEntryInternal (i : Item)
  | copyDirectoryContent (dir : Nat) (currentdepth : Int32)
  | enqueue (dir : Nat) (entries : List (Entry × Nat)) (currentdepth : Int32)
  | complete (c : Completion)
  | finish (dir : Nat)

namespace Copier

def handled (s : Copier) (c : Completion) (how : Handling) : Copier := { s with log := s.log ++ [.handled c how] }

def BeginDirectory (s : Copier) (i : Item) : Copier :=
  ⟨s.dirs ++ [⟨i.e,i.targetPath,i.onCompletion,none,0⟩],s.log ++ [.began s.dirs.length]⟩

def FinishDirectory (s : Copier) (dir : Nat) (d : Dir) : Copier :=
  ⟨s.dirs.set dir { d with finished := d.finished + 1 },s.log ++ [.finished dir]⟩

def setLeft (s : Copier) (dir : Nat) (d : Dir) (left : Int) : Copier :=
  { s with dirs := s.dirs.set dir { d with left := some left } }

end Copier

variable (paths : Paths) (options : Options)

abbrev Outcome := Result Item Place Copier

def go (s : Copier) (next : Place) (front back : List Item) : Option Outcome := some ⟨s,.inl next,front,back⟩

/-- The callback returns, with an error or without. -/
def returns (s : Copier) (ok : Bool) : Option Outcome := some ⟨s,.inr ok,[],[]⟩

/-- An error of an entry: it is returned, or ignored and then counts as handled. -/
def fails (s : Copier) (c : Completion) : Option Outcome :=
  returns (if options.IgnoreErrors then s.handled c .ignored else s) options.IgnoreErrors

/-- What a worker does next. The answer of the output or of the directory to it is a choice: whether the restore is cancelled,
whether the entry exists, or whether the operation fails. -/
def act (s : Copier) (place : Place) (choice : Bool) : Option Outcome :=
  match place with
  | .copyEntry i =>
    if options.Cancel ∧ choice then go (s.handled i.onCompletion .cancelled) (.complete i.onCompletion) [] []
    else go s (.incremental i) [] []
  | .incremental i =>
    if options.Incremental ∧ i.e.exists_ choice then go (s.handled i.onCompletion .skipped) (.complete i.onCompletion) [] []
    else go s (.copyEntryInternal i) [] []
  | .copyEntryInternal i =>
    match i.e with
    | .directory _ hasDirEntry _ =>
      if paths.SafelySuffixablePath i.targetPath ∧ i.currentdepth > options.RestoreDirEntryAtDepth then
        if ¬ hasDirEntry ∨ choice then fails options s i.onCompletion
        else go (s.handled i.onCompletion .shallow) (.complete i.onCompletion) [] []
      else if choice then fails options s i.onCompletion
      else go (s.BeginDirectory i) (.copyDirectoryContent s.dirs.length (i.currentdepth + 1)) [] []
    | .file _ =>
      if choice then fails options s i.onCompletion
      else
        let how := if i.currentdepth > options.RestoreDirEntryAtDepth then .shallow else .written
        go (s.handled i.onCompletion how) (.complete i.onCompletion) [] []
    | .symlink _ =>
      if choice then fails options s i.onCompletion
      else go (s.handled i.onCompletion .written) (.complete i.onCompletion) [] []
    | .other _ => fails options s i.onCompletion
  | .copyDirectoryContent dir currentdepth =>
    s.dirs[dir]?.bind fun d =>
      if choice then fails options s d.onCompletion
      else if d.d.entries.length = 0 then go s (.finish dir) [] []
      else go (s.setLeft dir d d.d.entries.length) (.enqueue dir d.d.entries.zipIdx currentdepth) [] []
  | .enqueue dir entries currentdepth =>
    match entries with
    | [] => returns s true
    | (e,k) :: entries =>
      s.dirs[dir]?.bind fun d =>
        let i : Item := ⟨e,paths.Join d.targetPath e.name,currentdepth,some (dir,k)⟩
        go s (.enqueue dir entries currentdepth) (if e.IsDir then [i] else []) (if e.IsDir then [] else [i])
  | .complete none => returns s true
  | .complete (some (dir,_)) =>
    s.dirs[dir]?.bind fun d =>
      d.left.bind fun left =>
        if left - 1 = 0 then go (s.setLeft dir d (left - 1)) (.finish dir) [] []
        else returns (s.setLeft dir d (left - 1)) true
  | .finish dir =>
    s.dirs[dir]?.bind fun d =>
      if choice then fails options (s.FinishDirectory dir d) d.onCompletion
      else go (s.FinishDirectory dir d) (.complete d.onCompletion) [] []

/-- The workers of a restore, with the root in the queue. -/
def Entry.restore (root : Entry) (workers : Nat) : Queue Item Place Copier :=
  Queue.Process (Queue.EnqueueFront [] ⟨root,"",0,none⟩) ⟨[],[]⟩ workers

abbrev step := Queue.step Place.copyEntry (act paths options)

end Model

section Meaning

/-- An entry was handled, or the directory that it is was finished. -/
def Handled (dirs : List Dir) (log : List Event) (c : Nat × Nat) : Prop :=
  (∃ how, .handled (some c) how ∈ log) ∨ ∃ j d, dirs[j]? = some d ∧ d.onCompletion = some c ∧ .finished j ∈ log

/-- A directory was finished once, after all of its entries had been handled, and all directories in it finished. -/
def FinishedInOrder (s : Copier) (k : Nat) (d : Dir) : Prop :=
  ∃ before after, s.log = before ++ .finished k :: after ∧ .finished k ∉ before ∧ .finished k ∉ after ∧
    (∀ n < d.d.entries.length, Handled s.dirs before (k,n)) ∧
    ∀ j d' n, s.dirs[j]? = some d' → d'.onCompletion = some (k,n) → .finished j ∈ before

/-- An ignored error leaves no directory open: it is one of the root, and not of reading its entries. -/
def Harmless (s : Copier) : Place → Prop
  | .copyEntryInternal i => i.onCompletion = none
  | .finish dir => ∀ d, s.dirs[dir]? = some d → d.onCompletion = none
  | _ => False

variable (paths : Paths) (options : Options)

/-- The operation of a place fails. -/
def Fails (choice : Bool) : Place → Bool
  | .copyEntryInternal i =>
    match i.e with
    | .directory _ hasDirEntry _ =>
      choice || paths.SafelySuffixablePath i.targetPath && i.currentdepth > options.RestoreDirEntryAtDepth && !hasDirEntry
    | .other _ => true
    | _ => choice
  | .copyDirectoryContent _ _ => choice
  | .finish _ => choice
  | _ => false

/-- The worker that acts ignores no error, or a harmless one. -/
def Keeps (q : Queue Item Place Copier) (l : Nat × Bool × Bool) : Prop :=
  ∀ place, .running place ∈ q.workers[l.1]? → options.IgnoreErrors = true → Fails paths options l.2.2 place = true →
    Harmless q.shared place

end Meaning

end Vbe.Snapshots.Restoring
