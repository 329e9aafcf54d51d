import Vbe.Sharded.Listing

/-! A listing of a sharded storage reports the blobs of a flat one. -/
namespace Vbe.Sharded
open Vbe.Library Vbe.Library.Paths Vbe.Parallelwork

/-- What an implementation tells about its directories. -/
structure Reads (files : Files) (dirs : List (List Path)) (ReadDir : Path → Option (List FileInfo)) : Prop where
  distinct : ∀ p entries, ReadDir p = some entries → (entries.map FileInfo.Name).Nodup
  plain : ∀ p entries, ReadDir p = some entries → ∀ e ∈ entries, Plain e.Name
  files : ∀ p entries, ReadDir p = some entries → ∀ name size modTime,
    ⟨name,false,size,modTime⟩ ∈ entries ↔ ⟨names p ++ [name],size,modTime⟩ ∈ files.values
  dirs : ∀ p entries, ReadDir p = some entries → ∀ name, (∃ e ∈ entries, e.Name = name ∧ e.IsDir = true) ↔ names p ++ [name] ∈ dirs

/-- The directories of an implementation are those that lead to files, and others. -/
structure Directories (files : Files) (root : List Path) (dirs : List (List Path)) : Prop where
  top : root ∈ dirs
  apart : ∀ f ∈ files.values, f.location ∉ dirs
  parents : ∀ f ∈ files.values, ∀ d, root <+: d → d <+: f.location → d ≠ f.location → d ∈ dirs

section Entries
variable {s : Storage} {parametersFile : Option (Int × Int)} {files : Files} {blobs : Blobs} {dirs : List (List Path)}
  {ReadDir : Path → Option (List FileInfo)} {pre : ID} {i : Item} {entries : List FileInfo} {e : FileInfo} {b : Metadata}

/-- A directory that a walk comes to. -/
structure Placed (s : Storage) (dirs : List (List Path)) (i : Item) : Prop where
  below : ∃ rel, names i.directory = names s.RootPath ++ rel ∧ i.currentPrefix = rel.flatten
  there : names i.directory ∈ dirs

/-- The place of an entry of a directory. -/
def place (i : Item) (e : FileInfo) : List Path := names i.directory ++ [e.Name]

/-- A place is on the way to a blob. -/
def leads (s : Storage) (b : Metadata) (place : List Path) : Bool := place.isPrefixOf (s.location b.BlobID)

theorem leads_iff {place : List Path} : leads s b place = true ↔ place <+: s.location b.BlobID := List.isPrefixOf_iff_prefix

theorem Keeps.file (keeps : Keeps s (s.opened parametersFile) files blobs) (stored : b ∈ blobs.values) : s.file b ∈ files.values :=
  (keeps.files _).mpr (.inr ⟨b,stored,rfl⟩)

def Item.child (i : Item) (e : FileInfo) : Item := ⟨i.directory ++ slash :: e.Name,i.currentPrefix ++ e.Name⟩

theorem names_item_child (reads : Reads files dirs ReadDir) (read : ReadDir i.directory = some entries) (member : e ∈ entries) :
    names (i.child e).directory = place i e := names_child (reads.plain _ _ read e member) _

theorem Placed.child (placed : Placed s dirs i) (reads : Reads files dirs ReadDir) (read : ReadDir i.directory = some entries)
    (member : e ∈ entries) (isDir : e.IsDir = true) : Placed s dirs (i.child e) := by
  obtain ⟨rel,below,flat⟩ := placed.below
  have named := names_item_child reads read member
  refine ⟨⟨rel ++ [e.Name],?_,?_⟩,?_⟩
  · rw [named,place,below,List.append_assoc]
  · simp [Item.child,flat]
  · rw [named]
    exact (reads.dirs _ _ read _).mp ⟨e,member,rfl,isDir⟩

theorem Placed.root (directories : Directories files (names s.RootPath) dirs) : Placed s dirs ⟨s.RootPath,[]⟩ :=
  ⟨⟨[],by simp,rfl⟩,directories.top⟩

/-- One entry of a directory on the way to a blob leads on to it. -/
theorem countP_leads (keeps : Keeps s (s.opened parametersFile) files blobs) (directories : Directories files (names s.RootPath) dirs)
    (reads : Reads files dirs ReadDir) (placed : Placed s dirs i) (read : ReadDir i.directory = some entries) (stored : b ∈ blobs.values) :
    entries.countP (fun e => leads s b (place i e)) = if leads s b (names i.directory) then 1 else 0 := by
  split
  next way =>
    obtain ⟨more,whole⟩ := leads_iff.mp way
    have file := keeps.file stored
    obtain ⟨n,more,rfl⟩ := List.exists_cons_of_ne_nil (l := more) fun none => by
      refine directories.apart _ file ?_
      rw [Storage.file,← whole,none,List.append_nil]
      exact placed.there
    have found : n ∈ entries.map FileInfo.Name := by
      cases more with
      | nil =>
        have entry := (reads.files _ _ read n b.Length b.Timestamp).mpr (by rw [whole]; exact file)
        exact List.mem_map_of_mem (f := FileInfo.Name) entry
      | cons m more =>
        obtain ⟨rel,below,_⟩ := placed.below
        have dir : names i.directory ++ [n] ∈ dirs := by
          refine directories.parents _ file _ ?_ ⟨m :: more,?_⟩ fun same => ?_
          · rw [below,List.append_assoc]
            exact List.prefix_append _ _
          · rw [List.append_assoc]
            exact whole
          · have total := congrArg List.length (same.trans whole.symm)
            simp at total
        obtain ⟨e,member,named,_⟩ := (reads.dirs _ _ read n).mpr dir
        exact named ▸ List.mem_map_of_mem member
    have same (e : FileInfo) : leads s b (place i e) = (e.Name == n) := by
      rw [Bool.eq_iff_iff,leads_iff,place,← whole,List.prefix_append_right_inj,List.cons_prefix_cons,beq_iff_eq]
      simp
    have once := List.count_eq_one_of_mem (reads.distinct _ _ read) found
    rw [List.count,List.countP_map] at once
    rw [← once]
    exact List.countP_congr fun e _ => by rw [same e]; rfl
  next away =>
    refine List.countP_eq_zero.mpr fun e _ way => away ?_
    exact leads_iff.mpr ((List.prefix_append _ _).trans (leads_iff.mp way))

/-- A file on the way to a blob is that of the blob. -/
theorem place_file (keeps : Keeps s (s.opened parametersFile) files blobs) (directories : Directories files (names s.RootPath) dirs)
    (reads : Reads files dirs ReadDir) (placed : Placed s dirs i) (read : ReadDir i.directory = some entries) (member : e ∈ entries)
    (isFile : e.IsDir = false) (stored : b ∈ blobs.values) (way : leads s b (place i e) = true) : place i e = s.location b.BlobID := by
  by_contra other
  obtain ⟨rel,below,_⟩ := placed.below
  have dir : place i e ∈ dirs := by
    refine directories.parents _ (keeps.file stored) _ ?_ (leads_iff.mp way) other
    rw [place,below,List.append_assoc]
    exact List.prefix_append _ _
  have file : ⟨place i e,e.Size,e.ModTime⟩ ∈ files.values := by
    rw [place,← reads.files _ _ read]
    rw [← isFile]
    exact member
  exact directories.apart _ file dir

/-- The parts of a blob's ID on the way to it are a part of the ID. -/
theorem prefix_of_leads (keeps : Keeps s (s.opened parametersFile) files blobs) (directories : Directories files (names s.RootPath) dirs)
    (placed : Placed s dirs i) (stored : b ∈ blobs.values) (way : leads s b (names i.directory) = true) : i.currentPrefix <+: b.BlobID := by
  obtain ⟨rel,below,flat⟩ := placed.below
  obtain ⟨parts,rest,split,here⟩ := location_split s (keeps.clear b stored)
  have way := leads_iff.mp way
  rw [below,here,List.append_assoc,List.prefix_append_right_inj,List.prefix_concat_iff] at way
  rcases way with whole | ⟨more,rfl⟩
  · refine absurd placed.there ?_
    rw [below,whole,← List.append_assoc,← here]
    exact directories.apart _ (keeps.file stored)
  · rw [flat,← split.whole,List.flatten_append,List.append_assoc]
    exact List.prefix_append _ _

/-- What comes from the two sides of one text goes together. -/
theorem mayMatch_of_leading {newPrefix id : ID} (listed : pre <+: id) (here : newPrefix <+: id) : mayMatch pre newPrefix = true := by
  rw [mayMatch]
  split
  next longer => exact List.isPrefixOf_iff_prefix.mpr (List.prefix_of_prefix_length_le here listed (Nat.le_of_lt longer))
  next shorter => exact List.isPrefixOf_iff_prefix.mpr (List.prefix_of_prefix_length_le listed here (Nat.le_of_not_lt shorter))

/-- The file of a blob has its name. -/
theorem name_of_place (keeps : Keeps s (s.opened parametersFile) files blobs) (placed : Placed s dirs i) (stored : b ∈ blobs.values)
    (here : place i e = s.location b.BlobID) : i.currentPrefix ++ e.Name = makeFileName b.BlobID := by
  obtain ⟨rel,below,flat⟩ := placed.below
  obtain ⟨parts,rest,split,there⟩ := location_split s (keeps.clear b stored)
  rw [place,below,there] at here
  obtain ⟨dir,name⟩ := List.append_inj' here rfl
  rw [flat,List.append_cancel_left dir,(List.cons.inj name).1,← split.whole,makeFileName,makeFileName,List.append_assoc]

/-- A file whose name says so is that of a blob. -/
theorem blob_of_file (keeps : Keeps s (s.opened parametersFile) files blobs) (reads : Reads files dirs ReadDir) (placed : Placed s dirs i)
    (read : ReadDir i.directory = some entries) (member : e ∈ entries) (isFile : e.IsDir = false) {fullID : ID}
    (named : getBlobIDFromFileName (i.currentPrefix ++ e.Name) = some fullID) :
    ⟨fullID,e.Size,e.ModTime⟩ ∈ blobs.values ∧ s.location fullID = place i e := by
  have file : ⟨place i e,e.Size,e.ModTime⟩ ∈ files.values := by
    rw [place,← reads.files _ _ read]
    rw [← isFile]
    exact member
  rcases (keeps.files _).mp file with old | ⟨b,stored,same⟩
  · obtain ⟨rel,below,flat⟩ := placed.below
    have here := mem_opened old
    rw [place,below] at here
    obtain ⟨none,params⟩ := List.append_inj' here rfl
    obtain rfl : rel = [] := List.append_cancel_left (none.trans (List.append_nil _).symm)
    have unnamed : getBlobIDFromFileName ParametersFile = Option.none := by decide
    rw [flat,(List.cons.inj params).1,List.flatten_nil,List.nil_append,unnamed] at named
    contradiction
  · have same : File.mk (place i e) e.Size e.ModTime = ⟨s.location b.BlobID,b.Length,b.Timestamp⟩ := same
    obtain ⟨location,size,modTime⟩ := File.mk.inj same
    rw [name_of_place keeps placed stored location,getBlobIDFromFileName_makeFileName] at named
    obtain rfl := Option.some.inj named
    rw [size,modTime]
    exact ⟨stored,location.symm⟩

end Entries

end Vbe.Sharded
