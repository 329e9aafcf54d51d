import Vbe.Index.Builder

/-! Blobs in a storage, by name. -/
namespace Vbe.Caching
open Vbe.Index (Bytes BlobID)

abbrev Time := Int

structure Metadata where
  BlobID : BlobID
  Length : Nat
  Timestamp : Time
deriving DecidableEq

inductive Write
  | put (blob : Metadata)
  | delete (blobID : BlobID)
deriving DecidableEq

namespace Write

def blobID : Write → BlobID
  | put blob => blob.BlobID
  | delete blobID => blobID

def isPut : Write → Bool
  | put _ => true
  | delete _ => false

def apply (blobs : List Metadata) : Write → List Metadata
  | put blob => blob :: blobs.filter (·.BlobID ≠ blob.BlobID)
  | delete blobID => blobs.filter (·.BlobID ≠ blobID)

end Write

section Writes
variable {blobs : List Metadata} {b m : Metadata} {blobID : BlobID}

@[simp] theorem mem_apply_put : m ∈ (Write.put b).apply blobs ↔ m = b ∨ m ∈ blobs ∧ m.BlobID ≠ b.BlobID := by
  simp [Write.apply]

@[simp] theorem mem_apply_delete : m ∈ (Write.delete blobID).apply blobs ↔ m ∈ blobs ∧ m.BlobID ≠ blobID := by
  simp [Write.apply]

/-- A name is stored once. -/
theorem nodup_apply (nodup : (blobs.map (·.BlobID)).Nodup) (w : Write) : ((w.apply blobs).map (·.BlobID)).Nodup := by
  have rest (name : BlobID) : ((blobs.filter (·.BlobID ≠ name)).map (·.BlobID)).Nodup := nodup.sublist (List.filter_sublist.map _)
  cases w with
  | delete blobID => exact rest blobID
  | put b =>
    rw [Write.apply,List.map_cons,List.nodup_cons]
    refine ⟨?_,rest b.BlobID⟩
    intro member
    obtain ⟨m,there,same⟩ := List.mem_map.mp member
    exact absurd same (of_decide_eq_true (List.mem_filter.mp there).2)

end Writes

end Vbe.Caching
