import Vbe.Index.Version1
import Vbe.Index.Version2Readers

/-! Opening an index file of either version. -/
namespace Vbe.Index
open Vbe.Library.Bytes

section Dispatch

/-- An opened index of either version. -/
inductive PackIndex
  | v1 (ndx : IndexV1)
  | v2 (ndx : IndexV2)

inductive OpenIndexError
  | invalid (e : OpenError)
  | invalidHeaderFormat (version : Nat)
deriving DecidableEq

def Open (v1PerContentOverhead : Nat) (data : Bytes) : Except OpenIndexError PackIndex :=
  match v1ReadHeader data with
  | .error e => .error (.invalid e)
  | .ok h =>
    if h.version = Version1.toNat then .ok (.v1 ⟨h,data,UInt32.ofNat v1PerContentOverhead⟩)
    else if h.version = Version2.toNat then
      match openV2PackIndex data with
      | .error e => .error (.invalid e)
      | .ok ndx => .ok (.v2 ndx)
    else .error (.invalidHeaderFormat h.version)

namespace PackIndex

def table : PackIndex → Table
  | v1 ndx => ndx.table
  | v2 ndx => ndx.table

/-- What an opened index answers while it remembers `names`. -/
def opened (names : NameMap) : PackIndex → OpenedIndex ReadError
  | v1 ndx => ⟨ndx.ApproximateCount,fun id => (ndx.GetInfo names id).1,fun r => (ndx.Iterate names r).1⟩
  | v2 ndx => ⟨ndx.ApproximateCount,ndx.GetInfo,ndx.Iterate⟩

end PackIndex

/-- The names that an opened index of either version can have read. -/
def PackIndex.Remembers : PackIndex → NameMap → Prop
  | v1 ndx, names => ndx.Remembers names
  | v2 _, _ => True

theorem PackIndex.remembers_nil (ndx : PackIndex) : ndx.Remembers [] := by
  cases ndx with
  | v1 ndx => exact .opened
  | v2 ndx => trivial

/-- What a successful `openV2PackIndex` has found. -/
theorem openV2PackIndex_inv {data : Bytes} {ndx : IndexV2} (opened : openV2PackIndex data = .ok ndx) :
    ∃ header, slice data 0 v2IndexHeaderSize = some header ∧ 1 < (readHeader header).keySize ∧ ndx.hdr = readHeader header ∧
      ndx.data = data ∧ (List.range (readHeader header).packCount).mapM (readPackID data (readHeader header).packsOffset) =
        .ok ndx.packBlobIDs := by
  unfold openV2PackIndex at opened
  split at opened
  next => contradiction
  next header read =>
    dsimp only at opened
    split at opened
    next => contradiction
    next accepted =>
      split at opened
      next => contradiction
      next =>
        split at opened
        next => contradiction
        next formatsBuf _ =>
          cases packs : (List.range (readHeader header).packCount).mapM (readPackID data (readHeader header).packsOffset) with
          | error e =>
            rw [packs] at opened
            contradiction
          | ok packIDs =>
            rw [packs] at opened
            cases Except.ok.inj opened
            exact ⟨header,read,not_le.mp fun short => accepted (Or.inl short),rfl,rfl,packs⟩

/-- The readers of an opened index read the data that was opened. -/
theorem Open_data {v1PerContentOverhead : Nat} {data : Bytes} {ndx : PackIndex}
    (opened : Open v1PerContentOverhead data = .ok ndx) : ndx.table.data = data := by
  unfold Open at opened
  split at opened
  next => contradiction
  next h _ =>
    split at opened
    next =>
      cases Except.ok.inj opened
      rfl
    next =>
      split at opened
      next =>
        split at opened
        next => contradiction
        next v2 read =>
          cases Except.ok.inj opened
          obtain ⟨_,_,_,_,same,_⟩ := openV2PackIndex_inv read
          exact same
      next => contradiction

/-- An index of version 1 answers as its table does. -/
theorem IndexV1.Settled.opened {b : IndexV1} {Good : NameMap → Prop} {names : NameMap} (settled : b.Settled Good)
    (good : Good names) : (PackIndex.v1 b).opened names = b.table.opened := by
  have looked : (fun id => (b.GetInfo names id).1) = b.table.GetInfo := by
    ext1 id
    obtain ⟨names',found,_⟩ := settled.GetInfo good id
    rw [found]
  have iterated : (fun r => (b.Iterate names r).1) = b.table.Iterate := by
    ext1 r
    exact settled.Iterate good r
  rw [PackIndex.opened,looked,iterated]
  rfl

theorem IndexV2.opened_table (b : IndexV2) (names : NameMap) : (PackIndex.v2 b).opened names = b.table.opened := by
  have iterated : b.Iterate = b.table.Iterate := by
    ext1 r
    exact b.Iterate_table r
  rw [PackIndex.opened,iterated]
  rfl

end Dispatch

end Vbe.Index
