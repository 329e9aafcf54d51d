import Vbe.Index.Merged
import Vbe.Index.Version2

/-! The part of an index file that both versions share: a table of entries of one
length, each a key and a value, sorted by key. Lookup and iteration are both a binary
search for a boundary in the table. -/
namespace Vbe.Index
open Vbe.Library.Bytes Vbe.Library.Search

/-- `decode` is what the version makes of the value of an entry. -/
structure Table where
  data : Bytes
  entriesOffset : Nat
  stride : Nat
  keySize : Nat
  entryCount : Nat
  decode : ID → Bytes → Except ReadError Info

namespace Table
open IndexV2 (keyToContentID)

def entryOffset (b : Table) (p : Nat) : Nat := b.entriesOffset + b.stride * p

/-- The key of entry `p`, read for a comparison during a search. -/
def searchKey (b : Table) (p : Nat) : Except ReadError Bytes :=
  match slice b.data (b.entryOffset p) b.keySize with
  | none => .error .invalidSlice
  | some key => .ok key

def findEntryPosition (b : Table) (start : IDPrefix) : Except ReadError Nat :=
  search b.entryCount fun p => do
    let contentID ← keyToContentID (← b.searchKey p)
    return contentID.comparePrefix start ≠ .lt

def findEntryPositionExact (b : Table) (idBytes : Bytes) : Except ReadError Nat :=
  search b.entryCount fun p => do
    return compareBytes (← b.searchKey p) idBytes ≠ .lt

/-- The value bytes of an identifier's entry, `none` where the index lacks it. -/
def findEntry (b : Table) (contentID : ID) : Except ReadError (Option Bytes) :=
  let key := contentIDToBytes contentID
  if b.keySize = unknownKeySize then .ok none
  else if key.length ≠ b.keySize then .error (.invalidContentID key.length b.keySize)
  else
    match b.findEntryPositionExact key with
    | .error e => .error e
    | .ok position =>
      if position ≥ b.entryCount then .ok none
      else match slice b.data (b.entryOffset position) b.stride with
        | none => .error .invalidSlice
        | some entryBuf =>
          if entryBuf.take key.length = key then .ok (some (entryBuf.drop key.length)) else .ok none

def GetInfo (b : Table) (contentID : ID) : Except ReadError (Option Info) :=
  match b.findEntry contentID with
  | .error e => .error e
  | .ok none => .ok none
  | .ok (some e) => (b.decode contentID e).map some

/-- The entries handed to a callback that never fails, and the error that ended
the iteration early. -/
def iterateFrom (b : Table) (r : IDRange) : Nat → Nat → List Info × Option ReadError
  | 0, _ => ([],none)
  | count + 1, i =>
    match slice b.data (b.entryOffset i) b.stride with
    | none => ([],some .invalidSlice)
    | some entry =>
      match keyToContentID (entry.take b.keySize) with
      | .error e => ([],some e)
      | .ok contentID =>
        if contentID.comparePrefix r.endID ≠ .lt then ([],none)
        else match b.decode contentID (entry.drop b.keySize) with
          | .error e => ([],some e)
          | .ok info =>
            let rest := b.iterateFrom r count (i + 1)
            (info :: rest.1,rest.2)

def Iterate (b : Table) (r : IDRange) : List Info × Option ReadError :=
  match b.findEntryPosition r.startID with
  | .error e => ([],some e)
  | .ok startPos => b.iterateFrom r (b.entryCount - startPos) startPos

end Table

/-- The index holds exactly the entries of `l`, in the order of `l`. -/
structure Table.Represents (ndx : Table) (l : List Info) : Prop where
  entryCount : ndx.entryCount = l.length
  keySize : ∀ i ∈ l, (contentIDToBytes i.contentID).length = ndx.keySize
  known : ndx.keySize ≠ unknownKeySize
  stride : ndx.keySize ≤ ndx.stride
  entry : ∀ p, ∀ inside : p < l.length, ∃ value,
    slice ndx.data (ndx.entryOffset p) ndx.stride = some (contentIDToBytes l[p].contentID ++ value)
      ∧ ndx.decode l[p].contentID value = .ok l[p]

namespace Table.Represents
open IndexV2 (keyToContentID)
variable {ndx : Table} {l : List Info}

theorem searchKey_eq (represents : ndx.Represents l) (p : Nat) (inside : p < l.length) :
    ndx.searchKey p = .ok (contentIDToBytes l[p].contentID) := by
  obtain ⟨value,found,_⟩ := represents.entry p inside
  have length := represents.keySize l[p] (List.getElem_mem inside)
  have key := slice_take found represents.stride
  rw [List.take_left' length] at key
  rw [Table.searchKey,key]

theorem key_le (sorted : l.Pairwise keyLess) {p q : Nat} (le : p ≤ q) (inside : q < l.length) :
    contentIDToBytes l[p].contentID ≤ contentIDToBytes l[q].contentID := by
  rcases Nat.lt_or_eq_of_le le with less | rfl
  · exact le_of_lt (List.pairwise_iff_getElem.mp sorted p q (by omega) inside less)
  · exact le_refl _

theorem findEntryPositionExact_boundary (represents : ndx.Represents l) (sorted : l.Pairwise keyLess)
    (idBytes : Bytes) : ∃ pos, ndx.findEntryPositionExact idBytes = .ok pos ∧
      Boundary l.length (fun p => ∃ i, l[p]? = some i ∧ idBytes ≤ contentIDToBytes i.contentID) pos := by
  have reads : ∀ p < ndx.entryCount,
      (do return compareBytes (← ndx.searchKey p) idBytes ≠ .lt : Except ReadError Bool) =
        .ok ((l[p]?.map fun i => decide (idBytes ≤ contentIDToBytes i.contentID)).getD false) := by
    intro p inside
    rw [represents.entryCount] at inside
    rw [represents.searchKey_eq p inside,List.getElem?_eq_getElem inside]
    show Except.ok _ = _
    simp [compareBytes_ne_lt]
  obtain ⟨pos,found,boundary⟩ := search_boundary reads (by
    intro p q le inside holds
    rw [represents.entryCount] at inside
    rw [List.getElem?_eq_getElem (by omega)] at holds
    rw [List.getElem?_eq_getElem inside]
    simp only [Option.map_some,Option.getD_some,decide_eq_true_eq] at holds ⊢
    exact le_trans holds (key_le sorted le inside))
  refine ⟨pos,found,?_⟩
  rw [represents.entryCount] at boundary
  refine ⟨boundary.bound,?_,?_⟩
  · rintro p before ⟨i,there,le⟩
    exact boundary.before p before (by simp [there,le])
  · intro p after inside
    have holds := boundary.after p after inside
    rw [List.getElem?_eq_getElem inside] at holds
    exact ⟨l[p],List.getElem?_eq_getElem inside,by simpa using holds⟩

/-- A key that belongs to an entry leads to the value of the entry. -/
theorem findEntry_of_mem (represents : ndx.Represents l) (sorted : l.Pairwise keyLess) {p : Nat} (inside : p < l.length)
    {value : Bytes} (read : slice ndx.data (ndx.entryOffset p) ndx.stride =
      some (contentIDToBytes l[p].contentID ++ value)) : ndx.findEntry l[p].contentID = .ok (some value) := by
  obtain ⟨pos,found,boundary⟩ :=
    represents.findEntryPositionExact_boundary sorted (contentIDToBytes l[p].contentID)
  have upper : pos ≤ p := by
    by_contra before
    exact boundary.before p (by omega) ⟨l[p],List.getElem?_eq_getElem inside,le_refl _⟩
  have lower : ¬ pos < p := by
    intro less
    obtain ⟨j,there,le⟩ := boundary.after pos (le_refl _) (by omega)
    rw [List.getElem?_eq_getElem (by omega)] at there
    cases Option.some.inj there
    exact absurd (List.pairwise_iff_getElem.mp sorted pos p (by omega) inside less) (not_lt.mpr le)
  have position : pos = p := by omega
  subst position
  have length := represents.keySize l[pos] (List.getElem_mem inside)
  have small : ¬ ndx.entryCount ≤ pos := by rw [represents.entryCount]; omega
  have head : (contentIDToBytes l[pos].contentID ++ value).take ndx.keySize = contentIDToBytes l[pos].contentID :=
    List.take_left' length
  have tail : (contentIDToBytes l[pos].contentID ++ value).drop ndx.keySize = value := List.drop_left' length
  simp [Table.findEntry,represents.known,length,found,small,read,head,tail]

/-- A key of the right length that no entry has leads nowhere. -/
theorem findEntry_of_notMem (represents : ndx.Represents l) (sorted : l.Pairwise keyLess) {id : ID}
    (fits : (contentIDToBytes id).length = ndx.keySize) (absent : ∀ i ∈ l, i.contentID ≠ id) :
    ndx.findEntry id = .ok none := by
  obtain ⟨pos,found,boundary⟩ := represents.findEntryPositionExact_boundary sorted (contentIDToBytes id)
  by_cases inside : pos < l.length
  · obtain ⟨value,read,_⟩ := represents.entry pos inside
    have length := represents.keySize l[pos] (List.getElem_mem inside)
    have small : ¬ ndx.entryCount ≤ pos := by rw [represents.entryCount]; omega
    have differs : contentIDToBytes l[pos].contentID ≠ contentIDToBytes id :=
      fun same => absent l[pos] (List.getElem_mem inside) (contentIDToBytes_injective same)
    have head : (contentIDToBytes l[pos].contentID ++ value).take (contentIDToBytes id).length ≠
        contentIDToBytes id := by
      rw [fits,List.take_left' length]
      exact differs
    simp only [Table.findEntry,represents.known,if_false,ne_eq,fits,not_true,found,if_neg small,read]
    rw [fits] at head
    simp [head]
  · have large : ndx.entryCount ≤ pos := by rw [represents.entryCount]; omega
    simp [Table.findEntry,represents.known,fits,found,large]

theorem findEntry_of_length (represents : ndx.Represents l) {id : ID}
    (other : (contentIDToBytes id).length ≠ ndx.keySize) :
    ndx.findEntry id = .error (.invalidContentID (contentIDToBytes id).length ndx.keySize) := by
  simp [Table.findEntry,represents.known,other]

theorem GetInfo_of_mem (represents : ndx.Represents l) (sorted : l.Pairwise keyLess) {i : Info} (member : i ∈ l) :
    ndx.GetInfo i.contentID = .ok (some i) := by
  obtain ⟨p,inside,rfl⟩ := List.mem_iff_getElem.mp member
  obtain ⟨value,read,decoded⟩ := represents.entry p inside
  rw [Table.GetInfo,represents.findEntry_of_mem sorted inside read]
  simp [decoded,Except.map]

theorem GetInfo_of_notMem (represents : ndx.Represents l) (sorted : l.Pairwise keyLess) {id : ID}
    (fits : (contentIDToBytes id).length = ndx.keySize) (absent : ∀ i ∈ l, i.contentID ≠ id) :
    ndx.GetInfo id = .ok none := by
  rw [Table.GetInfo,represents.findEntry_of_notMem sorted fits absent]

theorem GetInfo_of_length (represents : ndx.Represents l) {id : ID}
    (other : (contentIDToBytes id).length ≠ ndx.keySize) :
    ndx.GetInfo id = .error (.invalidContentID (contentIDToBytes id).length ndx.keySize) := by
  rw [Table.GetInfo,represents.findEntry_of_length other]

section Iteration
variable (valid : ∀ i ∈ l, i.contentID.Valid)
include valid

theorem fits_of_valid {i : Info} (member : i ∈ l) : i.contentID.data.length ≤ maxHashSize :=
  (valid i member).2.2

/-- The text of the identifiers grows along the list. -/
theorem String_le (sorted : l.Pairwise keyLess) {p q : Nat} (le : p ≤ q) (inside : q < l.length) :
    l[p].contentID.String ≤ l[q].contentID.String := by
  rcases Nat.lt_or_eq_of_le le with less | rfl
  · exact le_of_lt (ID.String_lt (valid _ (List.getElem_mem _)) (valid _ (List.getElem_mem _))
      (List.pairwise_iff_getElem.mp sorted p q (by omega) inside less))
  · exact le_refl _

theorem findEntryPosition_boundary (represents : ndx.Represents l) (sorted : l.Pairwise keyLess)
    (start : IDPrefix) : ∃ pos, ndx.findEntryPosition start = .ok pos ∧
      Boundary l.length (fun p => ∃ i, l[p]? = some i ∧
        decide (i.contentID.comparePrefix start ≠ .lt) = true) pos := by
  have reads : ∀ p < ndx.entryCount,
      (do let contentID ← keyToContentID (← ndx.searchKey p)
          return decide (contentID.comparePrefix start ≠ .lt) : Except ReadError Bool) =
        .ok ((l[p]?.map fun i => decide (i.contentID.comparePrefix start ≠ .lt)).getD false) := by
    intro p inside
    rw [represents.entryCount] at inside
    rw [represents.searchKey_eq p inside,List.getElem?_eq_getElem inside]
    have back := bytesToContentID_contentIDToBytes (fits_of_valid valid (List.getElem_mem inside))
    show (keyToContentID _ >>= _) = _
    rw [keyToContentID,back]
    rfl
  obtain ⟨pos,found,boundary⟩ := search_boundary reads (by
    intro p q le inside holds
    rw [represents.entryCount] at inside
    rw [List.getElem?_eq_getElem (by omega)] at holds
    rw [List.getElem?_eq_getElem inside]
    simp only [Option.map_some,Option.getD_some,decide_eq_true_eq] at holds ⊢
    rw [ID.comparePrefix_eq (valid _ (List.getElem_mem _)),compareBytes_ne_lt] at holds ⊢
    exact le_trans holds (String_le valid sorted le inside))
  refine ⟨pos,found,?_⟩
  rw [represents.entryCount] at boundary
  refine ⟨boundary.bound,?_,?_⟩
  · rintro p before ⟨i,there,holds⟩
    refine boundary.before p before ?_
    rw [there]
    exact holds
  · intro p after inside
    have holds := boundary.after p after inside
    rw [List.getElem?_eq_getElem inside] at holds
    exact ⟨l[p],List.getElem?_eq_getElem inside,holds⟩

/-- From any position on, the entries up to the first one past the range are
handed out. -/
theorem iterateFrom_eq (represents : ndx.Represents l) (r : IDRange) (count pos : Nat)
    (whole : pos + count = l.length) : ndx.iterateFrom r count pos =
      ((l.drop pos).takeWhile fun i => decide (i.contentID.comparePrefix r.endID = .lt),none) := by
  induction count generalizing pos with
  | zero =>
    rw [List.drop_eq_nil_of_le (by omega)]
    rfl
  | succ count ih =>
    have inside : pos < l.length := by omega
    obtain ⟨value,read,decoded⟩ := represents.entry pos inside
    have length := represents.keySize l[pos] (List.getElem_mem inside)
    have back := bytesToContentID_contentIDToBytes (fits_of_valid valid (List.getElem_mem inside))
    rw [List.drop_eq_getElem_cons inside,List.takeWhile_cons]
    simp only [Table.iterateFrom,read,List.take_left' length,List.drop_left' length,
      keyToContentID,back,decoded]
    by_cases ends : l[pos].contentID.comparePrefix r.endID = .lt
    · simp [ends,ih (pos + 1) (by omega)]
    · simp [ends]

/-- Iteration yields the entries of the range, in the order of the list. -/
theorem Iterate_eq (represents : ndx.Represents l) (sorted : l.Pairwise keyLess) (r : IDRange) :
    ndx.Iterate r = (l.filter fun i => r.Contains i.contentID,none) := by
  obtain ⟨pos,found,boundary⟩ := represents.findEntryPosition_boundary valid sorted r.startID
  rw [Table.Iterate,found]
  show ndx.iterateFrom r (ndx.entryCount - pos) pos = _
  rw [represents.entryCount,
    represents.iterateFrom_eq valid r (l.length - pos) pos (by have := boundary.bound; omega),
    ← boundary.filter_eq_drop]
  have closed : ((l.filter fun i => decide (i.contentID.comparePrefix r.startID ≠ .lt)).takeWhile
      fun i => decide (i.contentID.comparePrefix r.endID = .lt)) =
      (l.filter fun i => decide (i.contentID.comparePrefix r.startID ≠ .lt)).filter
        fun i => decide (i.contentID.comparePrefix r.endID = .lt) := by
    apply takeWhile_eq_filter_of_closed
    refine (sorted.filter _).imp_of_mem ?_
    intro i j hi hj less below
    simp only [decide_eq_true_eq] at below ⊢
    have vi := valid i (List.mem_of_mem_filter hi)
    have vj := valid j (List.mem_of_mem_filter hj)
    by_contra notBelow
    rw [← ne_eq,ID.comparePrefix_eq vi,compareBytes_ne_lt] at notBelow
    have above : j.contentID.comparePrefix r.endID ≠ .lt := by
      rw [ID.comparePrefix_eq vj,compareBytes_ne_lt]
      exact le_trans notBelow (le_of_lt (ID.String_lt vi vj less))
    exact above below
  rw [closed,List.filter_filter]
  congr 2
  funext i
  simp [IDRange.Contains,Bool.and_comm]

end Iteration

end Table.Represents

section Valid
variable {ndx : Table} {l : List Info}

/-- What an opened table answers. -/
def Table.opened (b : Table) : OpenedIndex ReadError := ⟨b.entryCount,b.GetInfo,b.Iterate⟩

/-- A table that represents entries in key order is an index that answers from them. -/
def Table.Represents.toValid (represents : ndx.Represents l) (valid : ∀ i ∈ l, i.contentID.Valid)
    (sorted : l.Pairwise keyLess) (some : l ≠ []) : ValidIndex ReadError where
  toOpenedIndex := ndx.opened
  entries := l
  sorted := sorted
  iterates := represents.Iterate_eq valid sorted
  finds id lengths := by
    obtain ⟨first,member⟩ := List.exists_mem_of_ne_nil l some
    cases found : l.find? fun i => i.contentID = id with
    | some i =>
      obtain ⟨there,own⟩ := (find?_contentID sorted).mp found
      exact own ▸ represents.GetInfo_of_mem sorted there
    | none =>
      refine represents.GetInfo_of_notMem sorted ?_ fun i there same => ?_
      · exact (lengths first member).symm.trans (represents.keySize first member)
      · simpa [same] using List.find?_eq_none.mp found i there
  refuses id lengths := by
    refine ⟨_,represents.GetInfo_of_length fun same => lengths fun i member => ?_⟩
    exact (represents.keySize i member).trans same.symm

/-- A table without entries and without a key size answers that there is nothing. -/
def Table.toEmpty (ndx : Table) (none : ndx.entryCount = 0) (unknown : ndx.keySize = unknownKeySize) :
    ValidIndex ReadError where
  toOpenedIndex := ndx.opened
  entries := []
  sorted := List.Pairwise.nil
  iterates r := by simp [Table.opened,Table.Iterate,Table.findEntryPosition,search,searchFrom,none,Table.iterateFrom]
  finds id _ := by simp [Table.opened,Table.GetInfo,Table.findEntry,unknown]
  refuses id lengths := absurd (by simp) lengths

end Valid

end Vbe.Index
