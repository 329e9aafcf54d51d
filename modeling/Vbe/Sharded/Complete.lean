import Vbe.Sharded.Listed

/-! Every listing of a sharded storage ends, and reports each blob that it is to report once. -/
namespace Vbe.Sharded
open Vbe.Library Vbe.Library.Paths Vbe.Parallelwork

/-- A storage after some calls, with what its implementation tells. -/
structure Held (s : Storage) (parametersFile : Option (Int × Int)) (files : Files) (blobs : Blobs) (dirs : List (List Path))
    (ReadDir : Path → Option (List FileInfo)) : Prop where
  keeps : Keeps s (s.opened parametersFile) files blobs
  directories : Directories files (names s.RootPath) dirs
  reads : Reads files dirs ReadDir

section Actions
variable {pre : ID} {ReadDir : Path → Option (List FileInfo)} {c : Channels} {w : Walk} {other : Bool} {r : Result Item Walk Channels}

/-- What a worker may do while the listing goes on. -/
inductive Acts (pre : ID) (ReadDir : Path → Option (List FileInfo)) (c : Channels) : Walk → Result Item Walk Channels → Prop
  | failed (i : Item) (read : ReadDir i.directory = none) : Acts pre ReadDir c (.walkDir i) ⟨c,.inr false,[],[]⟩
  | read (i : Item) (entries : List FileInfo) (read : ReadDir i.directory = some entries) :
    Acts pre ReadDir c (.walkDir i) ⟨c,.inl (.entries i entries),[],[]⟩
  | done (i : Item) : Acts pre ReadDir c (.entries i []) ⟨c,.inr true,[],[]⟩
  | enter (i : Item) (e : FileInfo) (rest : List FileInfo) (isDir : e.IsDir = true) :
    Acts pre ReadDir c (.entries i (e :: rest))
      ⟨c,.inl (.entries i rest),if mayMatch pre (i.child e).currentPrefix then [i.child e] else [],[]⟩
  | skip (i : Item) (e : FileInfo) (rest : List FileInfo) (isFile : e.IsDir = false)
    (not : ∀ fullID, getBlobIDFromFileName (i.currentPrefix ++ e.Name) = some fullID → pre.isPrefixOf fullID = false) :
    Acts pre ReadDir c (.entries i (e :: rest)) ⟨c,.inl (.entries i rest),[],[]⟩
  | send (i : Item) (e : FileInfo) (rest : List FileInfo) (fullID : ID) (isFile : e.IsDir = false)
    (named : getBlobIDFromFileName (i.currentPrefix ++ e.Name) = some fullID) (listed : pre.isPrefixOf fullID = true) :
    Acts pre ReadDir c (.entries i (e :: rest))
      ⟨{ c with result := c.result ++ [⟨fullID,e.Size,e.ModTime⟩] },.inl (.entries i rest),[],[]⟩

theorem acts (unfinished : c.finished = false) (acted : walk pre ReadDir c w other = some r) : Acts pre ReadDir c w r := by
  cases w with
  | walkDir i =>
    rw [walk,unfinished,if_neg Bool.false_ne_true] at acted
    split at acted
    next read =>
      cases acted
      exact .failed i read
    next entries read =>
      cases acted
      exact .read i entries read
  | entries i rest =>
    cases rest with
    | nil =>
      cases acted
      exact .done i
    | cons e rest =>
      rw [walk] at acted
      split at acted
      next isDir =>
        cases acted
        exact .enter i e rest isDir
      next isDir =>
        have isFile : e.IsDir = false := by simpa using isDir
        split at acted
        next unnamed =>
          cases acted
          exact .skip i e rest isFile fun fullID named => absurd (unnamed.symm.trans named) (by simp)
        next fullID named =>
          split at acted
          next away =>
            cases acted
            refine .skip i e rest isFile fun other same => ?_
            obtain rfl := Option.some.inj (named.symm.trans same)
            simpa using away
          next listed =>
            rw [if_neg (by simp [unfinished])] at acted
            split at acted
            next =>
              cases acted
              exact .send i e rest fullID isFile named (by simpa using listed)
            next => contradiction

end Actions

section Weights
variable {s : Storage} {parametersFile : Option (Int × Int)} {files : Files} {blobs : Blobs} {dirs : List (List Path)}
  {ReadDir : Path → Option (List FileInfo)} {pre : ID} {c : Channels} {w : Walk} {r : Result Item Walk Channels}

/-- Whether a directory leads to a blob. -/
def Item.owes (s : Storage) (b : Metadata) (i : Item) : Nat := if leads s b (names i.directory) then 1 else 0

/-- How many of the things that a walk is still to look at lead to a blob. -/
def Walk.owes (s : Storage) (b : Metadata) : Walk → Nat
  | .walkDir i => i.owes s b
  | .entries i rest => rest.countP fun e => leads s b (place i e)

/-- A walk looks at a directory, and at entries that it has read from it. -/
def Walk.Placed (s : Storage) (dirs : List (List Path)) (ReadDir : Path → Option (List FileInfo)) : Walk → Prop
  | .walkDir i => Sharded.Placed s dirs i
  | .entries i rest => Sharded.Placed s dirs i ∧ ∃ entries, ReadDir i.directory = some entries ∧ rest ⊆ entries

theorem mem_listed {b : Metadata} : b ∈ blobs.listed pre ↔ b ∈ blobs.values ∧ pre <+: b.BlobID := by
  rw [Blobs.listed,List.mem_filter,List.isPrefixOf_iff_prefix]

/-- What a walk goes on to is where it should be. -/
theorem Acts.placed (held : Held s parametersFile files blobs dirs ReadDir) (acted : Acts pre ReadDir c w r)
    (placed : w.Placed s dirs ReadDir) :
    (∀ w', r.next = .inl w' → w'.Placed s dirs ReadDir) ∧ ∀ i ∈ r.front ++ r.back, Sharded.Placed s dirs i := by
  cases acted with
  | failed i read => exact ⟨by simp,by simp⟩
  | read i entries read =>
    refine ⟨fun w' next => ?_,by simp⟩
    cases next
    exact ⟨placed,entries,read,List.Subset.refl _⟩
  | done i => exact ⟨by simp,by simp⟩
  | enter i e rest isDir =>
    obtain ⟨placed,entries,read,inside⟩ := placed
    refine ⟨fun w' next => ?_,fun j member => ?_⟩
    · cases next
      exact ⟨placed,entries,read,List.Subset.trans (List.subset_cons_self e rest) inside⟩
    · have child := placed.child held.reads read (inside List.mem_cons_self) isDir
      split at member
      next => simpa using (List.mem_singleton.mp (by simpa using member)) ▸ child
      next => simp at member
  | skip i e rest isFile | send i e rest fullID isFile =>
    obtain ⟨placed,entries,read,inside⟩ := placed
    refine ⟨fun w' next => ?_,by simp⟩
    cases next
    exact ⟨placed,entries,read,List.Subset.trans (List.subset_cons_self e rest) inside⟩

/-- What is sent is to be reported. -/
theorem Acts.sound (held : Held s parametersFile files blobs dirs ReadDir) (acted : Acts pre ReadDir c w r)
    (placed : w.Placed s dirs ReadDir) : ∀ b ∈ r.shared.result, b ∈ c.result ∨ b ∈ blobs.listed pre := by
  intro b member
  cases acted with
  | send i e rest fullID isFile named listed =>
    obtain ⟨placed,entries,read,inside⟩ := placed
    rcases List.mem_append.mp member with before | now
    · exact .inl before
    · obtain rfl := List.mem_singleton.mp now
      have blob := blob_of_file held.keeps held.reads placed read (inside List.mem_cons_self) isFile named
      exact .inr (mem_listed.mpr ⟨blob.1,List.isPrefixOf_iff_prefix.mp listed⟩)
  | _ => exact .inl member

/-- A worker loses a blob only if it fails. -/
theorem Acts.owes (held : Held s parametersFile files blobs dirs ReadDir) (acted : Acts pre ReadDir c w r)
    (placed : w.Placed s dirs ReadDir) {b : Metadata} (listed : b ∈ blobs.listed pre) :
    r.goesOn (Walk.owes s b) + ((r.front ++ r.back).map (Item.owes s b)).sum + r.shared.result.count b = w.owes s b + c.result.count b ∨
      r.next = .inr false ∧ r.goesOn (Walk.owes s b) + ((r.front ++ r.back).map (Item.owes s b)).sum + r.shared.result.count b ≤
        w.owes s b + c.result.count b := by
  obtain ⟨stored,wanted⟩ := mem_listed.mp listed
  cases acted with
  | failed i read => exact .inr ⟨rfl,by simp [Result.goesOn]⟩
  | read i entries read =>
    left
    have once := countP_leads held.keeps held.directories held.reads placed read stored
    simp [Result.goesOn,Walk.owes,Item.owes,once]
  | done i => exact .inl (by simp [Result.goesOn,Walk.owes])
  | enter i e rest isDir =>
    left
    obtain ⟨placed,entries,read,inside⟩ := placed
    have member := inside List.mem_cons_self
    have child : (i.child e).owes s b = if leads s b (place i e) then 1 else 0 := by
      rw [Item.owes,names_item_child held.reads read member]
    cases way : leads s b (place i e) with
    | true =>
      have here : (i.child e).currentPrefix <+: b.BlobID := by
        refine prefix_of_leads held.keeps held.directories (placed.child held.reads read member isDir) stored ?_
        rw [names_item_child held.reads read member,way]
      rw [way,if_pos rfl] at child
      simp [Result.goesOn,Walk.owes,mayMatch_of_leading wanted here,child,way]
    | false =>
      rw [way,if_neg Bool.false_ne_true] at child
      cases mayMatch pre (i.child e).currentPrefix <;> simp [Result.goesOn,Walk.owes,child,way]
  | skip i e rest isFile not =>
    left
    obtain ⟨placed,entries,read,inside⟩ := placed
    have away : leads s b (place i e) = false := by
      by_contra way
      have here := place_file held.keeps held.directories held.reads placed read (inside List.mem_cons_self) isFile stored
        (by simpa using way)
      have named := name_of_place held.keeps placed stored here
      have wrong := not b.BlobID (by rw [named,getBlobIDFromFileName_makeFileName])
      rw [List.isPrefixOf_iff_prefix.mpr wanted] at wrong
      contradiction
    simp [Result.goesOn,Walk.owes,away]
  | send i e rest fullID isFile named listed =>
    left
    obtain ⟨placed,entries,read,inside⟩ := placed
    have member := inside List.mem_cons_self
    have sent := blob_of_file held.keeps held.reads placed read member isFile named
    cases way : leads s b (place i e) with
    | true =>
      have here := place_file held.keeps held.directories held.reads placed read member isFile stored way
      have same : fullID = b.BlobID := by
        have own := name_of_place held.keeps placed stored here
        rw [own,getBlobIDFromFileName_makeFileName] at named
        exact (Option.some.inj named).symm
      have equal : (⟨fullID,e.Size,e.ModTime⟩ : Metadata) = b := Keyed.eq_of_key sent.1 stored same
      rw [equal]
      simp [Result.goesOn,Walk.owes,way,List.count_append]
      omega
    | false =>
      have other : (⟨fullID,e.Size,e.ModTime⟩ : Metadata) ≠ b := by
        rintro rfl
        have reached : place i e <+: s.location fullID := ⟨[],(List.append_nil _).trans sent.2.symm⟩
        exact absurd (way.symm.trans (leads_iff.mpr reached)) Bool.false_ne_true
      simp [Result.goesOn,Walk.owes,way,List.count_append,other]

end Weights

section Effort
variable {s : Storage} {parametersFile : Option (Int × Int)} {files : Files} {blobs : Blobs} {dirs : List (List Path)}
  {ReadDir : Path → Option (List FileInfo)} {pre : ID} {c : Channels} {w : Walk} {r : Result Item Walk Channels}

/-- How much there is to do in a place. -/
def below (files : Files) (dirs : List (List Path)) (place : List Path) : Nat :=
  6 * dirs.countP (fun d => place.isPrefixOf d) + 2 * files.values.countP fun f => place.isPrefixOf f.location

def Item.effort (files : Files) (dirs : List (List Path)) (i : Item) : Nat := below files dirs (names i.directory) - 1

def Walk.effort (files : Files) (dirs : List (List Path)) : Walk → Nat
  | .walkDir i => i.effort files dirs
  | .entries i rest => 3 + (rest.map fun e => below files dirs (place i e)).sum

/-- Each thing that is below one of some children of a place is below one of them only, and below the place. -/
theorem countP_children {α : Type} (location : α → List Path) (l : List α) {children : List Path} (distinct : children.Nodup) (at_ : List Path) :
    (children.map fun n => l.countP fun a => (at_ ++ [n]).isPrefixOf (location a)).sum + l.countP (fun a => location a = at_) ≤
      l.countP fun a => at_.isPrefixOf (location a) := by
  have one (a : α) : children.countP (fun n => (at_ ++ [n]).isPrefixOf (location a)) + (if location a = at_ then 1 else 0) ≤
      if at_.isPrefixOf (location a) then 1 else 0 := by
    by_cases inside : at_ <+: location a
    · rw [if_pos (List.isPrefixOf_iff_prefix.mpr inside)]
      obtain ⟨more,whole⟩ := inside
      cases more with
      | nil =>
        have none : children.countP (fun n => (at_ ++ [n]).isPrefixOf (location a)) = 0 := by
          refine List.countP_eq_zero.mpr fun n _ reaches => ?_
          have short := (List.isPrefixOf_iff_prefix.mp reaches).length_le
          rw [← whole,List.length_append,List.length_append] at short
          simp only [List.length_singleton,List.length_nil] at short
          omega
        rw [none]
        split <;> simp
      | cons m more =>
        have other : location a ≠ at_ := by
          rw [← whole]
          simp
        have counted : children.countP (fun n => (at_ ++ [n]).isPrefixOf (location a)) = children.count m := by
          rw [List.count]
          refine List.countP_congr fun n _ => ?_
          rw [List.isPrefixOf_iff_prefix,← whole,List.prefix_append_right_inj,List.cons_prefix_cons,beq_iff_eq]
          simp
        rw [counted,if_neg other]
        exact List.nodup_iff_count_le_one.mp distinct m
    · have none : children.countP (fun n => (at_ ++ [n]).isPrefixOf (location a)) = 0 := by
        refine List.countP_eq_zero.mpr fun n _ reaches => inside ?_
        exact (List.prefix_append _ _).trans (List.isPrefixOf_iff_prefix.mp reaches)
      have other : location a ≠ at_ := by
        rintro rfl
        exact inside (List.prefix_refl _)
      rw [none,if_neg other]
      exact Nat.zero_le _
  induction l with
  | nil => simp
  | cons a l ih =>
    have first := one a
    have split : (children.map fun n => (a :: l).countP fun a => (at_ ++ [n]).isPrefixOf (location a)).sum =
        (children.map fun n => l.countP fun a => (at_ ++ [n]).isPrefixOf (location a)).sum +
          children.countP fun n => (at_ ++ [n]).isPrefixOf (location a) := by
      generalize children = ns
      induction ns with
      | nil => rfl
      | cons n ns more =>
        rw [List.map_cons,List.sum_cons,more,List.map_cons,List.sum_cons,List.countP_cons,List.countP_cons]
        omega
    rw [split,List.countP_cons,List.countP_cons]
    simp only [decide_eq_true_eq] at first ⊢
    omega

theorem below_children (held : Held s parametersFile files blobs dirs ReadDir) {i : Item} (placed : Placed s dirs i)
    {entries : List FileInfo} (read : ReadDir i.directory = some entries) :
    (entries.map fun e => below files dirs (place i e)).sum + 6 ≤ below files dirs (names i.directory) := by
  have distinct := held.reads.distinct _ _ read
  have ds := countP_children id dirs distinct (names i.directory)
  have fs := countP_children File.location files.values distinct (names i.directory)
  have own : 0 < dirs.countP fun d => decide (d = names i.directory) :=
    List.countP_pos_iff.mpr ⟨_,placed.there,by simp⟩
  have split : (entries.map fun e => below files dirs (place i e)).sum =
      6 * ((entries.map FileInfo.Name).map fun n => dirs.countP fun d => (names i.directory ++ [n]).isPrefixOf d).sum +
        2 * ((entries.map FileInfo.Name).map fun n => files.values.countP fun f => (names i.directory ++ [n]).isPrefixOf f.location).sum := by
    generalize entries = es
    induction es with
    | nil => rfl
    | cons e es ih =>
      simp only [List.map_cons,List.sum_cons]
      rw [ih,below,place]
      omega
  rw [split,below]
  simp only [id] at ds
  omega

theorem below_dir {dirs : List (List Path)} (files : Files) {d : List Path} (there : d ∈ dirs) : 6 ≤ below files dirs d := by
  have own : 0 < dirs.countP fun d' => d.isPrefixOf d' :=
    List.countP_pos_iff.mpr ⟨d,there,List.isPrefixOf_iff_prefix.mpr (List.prefix_refl d)⟩
  rw [below]
  omega

theorem below_file {f : File} (there : f ∈ files.values) : 2 ≤ below files dirs f.location := by
  have own : 0 < files.values.countP fun f' => f.location.isPrefixOf f'.location :=
    List.countP_pos_iff.mpr ⟨f,there,List.isPrefixOf_iff_prefix.mpr (List.prefix_refl _)⟩
  rw [below]
  omega

theorem below_entry (held : Held s parametersFile files blobs dirs ReadDir) {i : Item} {entries : List FileInfo}
    (read : ReadDir i.directory = some entries) {e : FileInfo} (member : e ∈ entries) : 2 ≤ below files dirs (place i e) := by
  cases kind : e.IsDir with
  | true =>
    have dir := below_dir files ((held.reads.dirs _ _ read _).mp ⟨e,member,rfl,kind⟩)
    exact Nat.le_trans (by decide) dir
  | false =>
    have file : ⟨place i e,e.Size,e.ModTime⟩ ∈ files.values := by
      rw [place,← held.reads.files _ _ read]
      rw [← kind]
      exact member
    exact below_file file

/-- Every action of a worker uses up effort, also that of the listing with what it is sent. -/
theorem Acts.less (held : Held s parametersFile files blobs dirs ReadDir) (acted : Acts pre ReadDir c w r)
    (placed : w.Placed s dirs ReadDir) :
    r.effort (Item.effort files dirs) (Walk.effort files dirs) + r.shared.result.length < w.effort files dirs + c.result.length := by
  cases acted with
  | failed i read =>
    have room := below_dir files (Placed.there placed)
    simp [Result.effort,Walk.effort,Item.effort]
    omega
  | read i entries read =>
    have room := below_children held placed read
    simp [Result.effort,Walk.effort,Item.effort]
    omega
  | done i => simp [Result.effort,Walk.effort]
  | enter i e rest isDir =>
    obtain ⟨placed,entries,read,inside⟩ := placed
    have room := below_entry held read (inside List.mem_cons_self)
    have child : (i.child e).effort files dirs = below files dirs (place i e) - 1 := by
      rw [Item.effort,names_item_child held.reads read (inside List.mem_cons_self)]
    cases mayMatch pre (i.child e).currentPrefix <;> simp [Result.effort,Walk.effort,child] <;> omega
  | skip i e rest isFile =>
    obtain ⟨placed,entries,read,inside⟩ := placed
    have room := below_entry held read (inside List.mem_cons_self)
    simp [Result.effort,Walk.effort]
    omega
  | send i e rest fullID isFile =>
    obtain ⟨placed,entries,read,inside⟩ := placed
    have room := below_entry held read (inside List.mem_cons_self)
    simp [Result.effort,Walk.effort]
    omega

end Effort

end Vbe.Sharded
