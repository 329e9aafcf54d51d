import Vbe.IgnoreFS.Ignorefs
import Vbe.Wildcard.Meaning

/-! The rules of an entry: the last one that covers it decides, from the root down to its
directory. What lies above a directory that takes no rules of its parents is not among them,
and yet has its say where no other rule covers the entry. -/
namespace Vbe.IgnoreFS
open Vbe.Wildcard

variable (u : Unicode)

section Verdicts

/-- A rule covers a path of a kind, negated or not. -/
def covers (path : List Rune) (isDir : Bool) (m : WildcardMatcher) : Bool :=
  ¬ (m.dirOnly ∧ ¬ isDir) ∧ doMatch u m.tokens path m.options.ignoreCase = some .wcMatch

/-- The last rule that covers a path is negated, or there is none. -/
def Passes (path : List Rune) (isDir : Bool) (rules : List WildcardMatcher) : Prop :=
  ∀ m, (rules.filter (covers u path isDir)).getLast? = some m → m.negated = true

variable {u} {path : List Rune} {isDir : Bool}

theorem Match_eq (clean : NUL ∉ path) (m : WildcardMatcher) :
    m.Match u path isDir = some (if covers u path isDir m then !m.negated else m.negated) := by
  have searched : doMatch u m.tokens path m.options.ignoreCase = _ := matchFrom_eq m.tokens clean (Nat.zero_le _)
  rw [WildcardMatcher.Match,covers]
  by_cases kind : m.dirOnly = true ∧ ¬ isDir = true
  · simp [kind]
  · rw [if_neg kind,searched]
    generalize search u _ _ _ = result
    have shown : decide (¬ (m.dirOnly = true ∧ ¬ isDir = true) ∧ some result = some .wcMatch) = decide (result = .wcMatch) :=
      decide_eq_decide.mpr ⟨fun both => Option.some.inj both.2,fun matched => ⟨kind,congrArg some matched⟩⟩
    rw [shown]
    by_cases matched : result = .wcMatch
    · simp [matched]
    · simp [matched]

theorem applyMatcher_eq {path : List Rune} (clean : NUL ∉ trimLeadingCurrentDir path) (verdict : Bool) (m : WildcardMatcher) :
    applyMatcher u path isDir verdict m =
      some (if covers u (trimLeadingCurrentDir path) isDir m then !m.negated else verdict) := by
  rw [applyMatcher,Match_eq clean]
  cases verdict with
  | true => cases negated : m.negated <;> simp
  | false => cases negated : m.negated <;> simp

/-- The verdict of rules one after the other is that of the last one that covers the path. -/
theorem foldlM_applyMatcher (clean : NUL ∉ trimLeadingCurrentDir path) (verdict : Bool) (rules : List WildcardMatcher) :
    rules.foldlM (applyMatcher u path isDir) verdict =
      some (match (rules.filter (covers u (trimLeadingCurrentDir path) isDir)).getLast? with
        | some m => !m.negated
        | none => verdict) := by
  induction rules using List.reverseRecOn with
  | nil => rfl
  | append_singleton rules m ih =>
    rw [List.foldlM_append,ih,List.filter_append]
    simp only [Option.bind_eq_bind,Option.bind_some,List.foldlM_cons,List.foldlM_nil,applyMatcher_eq clean]
    cases covered : covers u (trimLeadingCurrentDir path) isDir m with
    | true => simp [covered]
    | false => simp [covered]

/-- The rules of some layers, the nearest one first, from the farthest on. -/
def allRules (layers : List Layer) : List WildcardMatcher := layers.reverse.flatMap (·.matchers)

theorem allRules_cons (layer : Layer) (layers : List Layer) : allRules (layer :: layers) = allRules layers ++ layer.matchers := by
  rw [allRules,allRules,List.reverse_cons,List.flatMap_append]
  simp

theorem shouldIgnore_eq (layers : List Layer) :
    shouldIgnore u path isDir layers = (allRules layers).foldlM (applyMatcher u path isDir) false := by
  induction layers with
  | nil => rfl
  | cons layer layers ih =>
    rw [allRules_cons,List.foldlM_append,← ih]
    rfl

theorem shouldIncludeByName_iff_passes {path : List Rune} {e : Entry} (clean : NUL ∉ trimLeadingCurrentDir path) (ic : IgnoreContext) :
    ic.shouldIncludeByName u path e = some true ↔
      Passes u (trimLeadingCurrentDir path) e.isDir (allRules (ic.own :: ic.parents)) := by
  rw [IgnoreContext.shouldIncludeByName,shouldIgnore_eq,foldlM_applyMatcher clean,Passes]
  cases (List.filter (covers u (trimLeadingCurrentDir path) e.isDir) (allRules (ic.own :: ic.parents))).getLast? with
  | none => simp
  | some m => simp

theorem passes_append (above rules : List WildcardMatcher) :
    (Passes u path isDir (above ++ rules) ↔ Passes u path isDir rules) ↔
      (∃ m ∈ rules, covers u path isDir m) ∨ Passes u path isDir above := by
  rw [Passes,Passes,Passes,List.filter_append]
  by_cases covered : ∃ m ∈ rules, covers u path isDir m = true
  · obtain ⟨m,member,own⟩ := covered
    have some : rules.filter (covers u path isDir) ≠ [] := List.ne_nil_of_mem (List.mem_filter.mpr ⟨member,own⟩)
    rw [List.getLast?_append_of_ne_nil _ some]
    exact ⟨fun _ => .inl ⟨m,member,own⟩,fun _ => Iff.rfl⟩
  · have none : rules.filter (covers u path isDir) = [] := by
      rw [List.filter_eq_nil_iff]
      exact fun m member own => covered ⟨m,member,own⟩
    rw [none,List.append_nil]
    simp [covered]

end Verdicts

section Levels

/-- What one directory adds: its rules, and whether those above it count. -/
structure Level where
  cutOff : Bool
  rules : List WildcardMatcher
deriving DecidableEq

/-- The policy rules of a directory and then those of its ignore files. -/
def IgnoreDirectory.level (d : IgnoreDirectory) : Except IgnoreError Level := do
  let pol := DefinedPolicy d.policyTree
  let names := (pol.map (·.dotIgnoreFiles)).getD d.parentContext.own.dotIgnoreFiles
  let policyRules ← (parseRules u d.relativePath ((pol.map (·.ignoreRules)).getD [])).mapError (.policyRule d.relativePath)
  let fileRules ← loadDotIgnoreFiles u d.relativePath (d.findDotIgnoreFiles names)
  return ⟨(pol.map (·.noParentIgnoreRules)).getD false,policyRules ++ fileRules⟩

/-- The rules above the last level that cuts them off, and those from it on. -/
def split (levels : List Level) : List WildcardMatcher × List WildcardMatcher :=
  levels.foldl (fun parts level =>
    if level.cutOff then (parts.1 ++ parts.2,level.rules) else (parts.1,parts.2 ++ level.rules)) ([],[])

/-- The rules that count. -/
def applicable (levels : List Level) : List WildcardMatcher := (split levels).2

/-- A directory of a tree, with the levels above it. -/
inductive Reached : IgnoreDirectory → List Level → Prop
  | new (dev child policyTree) : Reached (New dev child policyTree) []
  | wrap {d above level ic name info child} (reached : Reached d above) (levelled : d.level u = .ok level)
      (built : d.buildContext u = .ok ic) (found : d.child name = some (.directory info child)) :
      Reached (d.wrap ic info child) (above ++ [level])

variable {u}

theorem split_concat (levels : List Level) (level : Level) : split (levels ++ [level]) =
    if level.cutOff then ((split levels).1 ++ (split levels).2,level.rules)
    else ((split levels).1,(split levels).2 ++ level.rules) := by
  rw [split,List.foldl_append]
  rfl

theorem split_append (levels : List Level) : (split levels).1 ++ (split levels).2 = levels.flatMap (·.rules) := by
  induction levels using List.reverseRecOn with
  | nil => rfl
  | append_singleton levels level ih =>
    rw [split_concat,List.flatMap_append,← ih]
    cases cut : level.cutOff with
    | true => simp
    | false => simp

/-- A context holds the rules of its parents and those of its own level. -/
theorem buildContext_rules {d : IgnoreDirectory} {ic : IgnoreContext} {level : Level} (built : d.buildContext u = .ok ic)
    (levelled : d.level u = .ok level) :
    allRules (ic.own :: ic.parents) = allRules (d.parentContext.own :: d.parentContext.parents) ++ level.rules := by
  rw [IgnoreDirectory.buildContext] at built
  rw [IgnoreDirectory.level] at levelled
  cases defined : DefinedPolicy d.policyTree with
  | none =>
    simp only [defined,Option.map_none,Option.getD_none,parseRules,Except.mapError,bind,Except.bind] at built levelled
    split at built
    next reused =>
      cases built
      have found := List.length_eq_zero_iff.mp reused.1
      rw [found] at levelled
      simp only [loadDotIgnoreFiles] at levelled
      cases levelled
      simp
    next =>
      cases loaded : loadDotIgnoreFiles u d.relativePath (d.findDotIgnoreFiles d.parentContext.own.dotIgnoreFiles) with
      | error => simp [loaded] at built
      | ok rules =>
        simp only [loaded] at built levelled
        cases built
        cases levelled
        exact allRules_cons ..
  | some pol =>
    simp only [defined,Option.map_some,Option.getD_some,bind,Except.bind,Option.isNone_some,Bool.false_eq_true,and_false,
      if_false,Layer.overrideFromPolicy] at built levelled
    cases parsed : (parseRules u d.relativePath pol.ignoreRules).mapError (IgnoreError.policyRule d.relativePath) with
    | error => simp [parsed] at built
    | ok policyRules =>
      simp only [parsed,pure,Except.pure] at built levelled
      cases loaded : loadDotIgnoreFiles u d.relativePath (d.findDotIgnoreFiles pol.dotIgnoreFiles) with
      | error => simp [loaded] at built
      | ok fileRules =>
        simp only [loaded] at built levelled
        cases built
        cases levelled
        rw [allRules_cons]
        simp

theorem NUL_notMem_entryPath {d : IgnoreDirectory} (clean : NUL ∉ d.relativePath) (e : Entry) : NUL ∉ d.entryPath e := by
  have separator : NUL ≠ '/' := by decide
  simp [IgnoreDirectory.entryPath,clean,separator,e.info.name.clean]

theorem NUL_notMem_trim {path : List Rune} (clean : NUL ∉ path) : NUL ∉ trimLeadingCurrentDir path := by
  rw [trimLeadingCurrentDir]
  split
  next => exact fun member => clean (List.mem_of_mem_drop member)
  next => exact clean

/-- The contexts above a directory hold the rules of the levels above it. -/
theorem Reached.rules {d : IgnoreDirectory} {above : List Level} (reached : Reached u d above) :
    NUL ∉ d.relativePath ∧ allRules (d.parentContext.own :: d.parentContext.parents) = above.flatMap (·.rules) := by
  induction reached with
  | new dev child policyTree =>
    have dot : NUL ∉ ['.'] := by decide
    exact ⟨dot,rfl⟩
  | wrap _ levelled built _ ih =>
    obtain ⟨clean,rules⟩ := ih
    refine ⟨NUL_notMem_entryPath clean _,?_⟩
    rw [IgnoreDirectory.wrap,buildContext_rules built levelled,rules,List.flatMap_append]
    simp

end Levels

section Claims

/-- An entry is shown as the rules that count say exactly where one of them covers it, or those
that are cut off would let it pass. -/
theorem shouldIncludeByName_iff (u : Unicode) (d : IgnoreDirectory) (above : List Level) (reached : Reached u d above)
    (level : Level) (levelled : d.level u = .ok level) (ic : IgnoreContext) (built : d.buildContext u = .ok ic) (e : Entry) :
    (ic.shouldIncludeByName u (d.entryPath e) e = some true ↔
        Passes u (trimLeadingCurrentDir (d.entryPath e)) e.isDir (applicable (above ++ [level]))) ↔
      (∃ m ∈ applicable (above ++ [level]), covers u (trimLeadingCurrentDir (d.entryPath e)) e.isDir m) ∨
        Passes u (trimLeadingCurrentDir (d.entryPath e)) e.isDir (split (above ++ [level])).1 := by
  obtain ⟨clean,rules⟩ := reached.rules
  have whole : allRules (ic.own :: ic.parents) = (split (above ++ [level])).1 ++ applicable (above ++ [level]) := by
    rw [buildContext_rules built levelled,rules,applicable,split_append,List.flatMap_append]
    simp
  rw [shouldIncludeByName_iff_passes (NUL_notMem_trim (NUL_notMem_entryPath clean e)),whole]
  exact passes_append _ _

/-- A directory whose policy hides 'a' everywhere, and in it one whose policy takes no rules of its parents. -/
def hidesA : FilesPolicy := ⟨[['a']],false,[],false,0,none⟩
def noParentRules : FilesPolicy := ⟨[],true,[],false,0,none⟩
def policies : Tree := .node hidesA false [(['d'],.node noParentRules false [])]

def ruleA : WildcardMatcher := ⟨['a'],[.star true,.dirSep,.rune 'a'],false,false,⟨false,[]⟩⟩
def nothing (_ : List Rune) : Option Entry := none
def infoD : Info := ⟨⟨['d'],by decide,by decide⟩,0,0⟩
def fileA : Entry := .file ⟨⟨['a'],by decide,by decide⟩,0,0⟩ none

def top : IgnoreDirectory := New 0 (fun name => if name = ['d'] then some (.directory infoD nothing) else none) (some policies)
def topContext : IgnoreContext := ⟨⟨[],[ruleA],0,false⟩,[rootContext.own]⟩
def inner : IgnoreDirectory := top.wrap topContext infoD nothing
def innerContext : IgnoreContext := ⟨⟨[],[],0,false⟩,[topContext.own,rootContext.own]⟩

theorem inner_reached : Reached ASCII inner [⟨false,[ruleA]⟩] :=
  .wrap (.new ..) (by decide +kernel) (by decide +kernel) (if_pos rfl)

theorem shouldIncludeByName_inner :
    (innerContext.shouldIncludeByName ASCII (inner.entryPath fileA) fileA = some true ↔
        Passes ASCII (trimLeadingCurrentDir (inner.entryPath fileA)) fileA.isDir (applicable [⟨false,[ruleA]⟩,⟨true,[]⟩])) ↔
      (∃ m ∈ applicable [⟨false,[ruleA]⟩,⟨true,[]⟩], covers ASCII (trimLeadingCurrentDir (inner.entryPath fileA)) fileA.isDir m) ∨
        Passes ASCII (trimLeadingCurrentDir (inner.entryPath fileA)) fileA.isDir (split [⟨false,[ruleA]⟩,⟨true,[]⟩]).1 :=
  shouldIncludeByName_iff ASCII inner [⟨false,[ruleA]⟩] inner_reached ⟨true,[]⟩ (by decide +kernel) innerContext
    (by decide +kernel) fileA

/-- The rule of the parent hides 'a' in a directory that takes no rules of its parents. -/
theorem parent_rule_applies : Reached ASCII inner [⟨false,[ruleA]⟩] ∧ inner.level ASCII = .ok ⟨true,[]⟩ ∧
    inner.buildContext ASCII = .ok innerContext ∧
    ¬ (innerContext.shouldIncludeByName ASCII (inner.entryPath fileA) fileA = some true ↔
      Passes ASCII (trimLeadingCurrentDir (inner.entryPath fileA)) fileA.isDir (applicable [⟨false,[ruleA]⟩,⟨true,[]⟩])) := by
  refine ⟨inner_reached,by decide +kernel,by decide +kernel,?_⟩
  intro claimed
  have passes : Passes ASCII (trimLeadingCurrentDir (inner.entryPath fileA)) fileA.isDir (applicable [⟨false,[ruleA]⟩,⟨true,[]⟩]) := by
    intro m last
    contradiction
  exact absurd (claimed.mpr passes) (by decide +kernel)

end Claims

end Vbe.IgnoreFS
