import Vbe.Index.Table

/-! The readers of an opened index are those of its table, for any index that represents
a list of entries: each position holds the key of its entry and a value that decodes to
it. -/
namespace Vbe.Index
open Vbe.Library.Bytes

namespace IndexV2

/-- The table of an opened index. -/
def table (b : IndexV2) : Table := ⟨b.data,b.hdr.entriesOffset,b.hdr.entryStride,b.hdr.keySize,b.hdr.entryCount,b.entryToInfoStruct⟩

theorem iterateFrom_table (b : IndexV2) (r : IDRange) (count i : Nat) :
    b.iterateFrom r count i = b.table.iterateFrom r count i := by
  induction count generalizing i with
  | zero => rfl
  | succ count ih =>
    rw [iterateFrom,Table.iterateFrom,ih]
    rfl

theorem Iterate_table (b : IndexV2) (r : IDRange) : b.Iterate r = b.table.Iterate r := by
  unfold Iterate
  simp only [iterateFrom_table]
  rfl

theorem GetInfo_table (b : IndexV2) (id : ID) : b.GetInfo id = b.table.GetInfo id := rfl

end IndexV2

/-- The index holds exactly the entries of `l`, in the order of `l`. -/
structure IndexV2.Represents (ndx : IndexV2) (l : List Info) : Prop where
  entryCount : ndx.hdr.entryCount = l.length
  keySize : ∀ i ∈ l, (contentIDToBytes i.contentID).length = ndx.hdr.keySize
  known : ndx.hdr.keySize ≠ unknownKeySize
  stride : ndx.hdr.keySize ≤ ndx.hdr.entryStride
  entry : ∀ p, ∀ inside : p < l.length, ∃ value,
    slice ndx.data (ndx.entryOffset p) ndx.hdr.entryStride = some (contentIDToBytes l[p].contentID ++ value)
      ∧ ndx.entryToInfoStruct l[p].contentID value = .ok l[p]

theorem IndexV2.Represents.table {ndx : IndexV2} {l : List Info} (represents : ndx.Represents l) :
    ndx.table.Represents l :=
  ⟨represents.entryCount,represents.keySize,represents.known,represents.stride,represents.entry⟩

end Vbe.Index
