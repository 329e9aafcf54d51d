import Vbe.Index.Builder

/-! Object identifiers: a content, the number of index levels in front of it, and whether the
object is stored compressed. -/
namespace Vbe.Objects
open Vbe.Index (Bytes)

structure ID where
  cid : Index.ID
  indirection : UInt8
  compression : Bool
deriving DecidableEq

def EmptyID : ID := ⟨Index.EmptyID,0,false⟩

namespace ID

/-- `strings.Repeat("I", indirection)`, 'Z', and the content. -/
def String (i : ID) : Bytes :=
  List.replicate i.indirection.toNat 73 ++ (if i.compression then [90] else []) ++ i.cid.String

def IndexObjectID (i : ID) : Option ID :=
  if i.indirection > 0 then some { i with indirection := i.indirection - 1 } else none

/-- The content and whether it is compressed. -/
def ContentID (i : ID) : Option (Index.ID × Bool) :=
  if i.indirection > 0 then none else some (i.cid,i.compression)

end ID

def DirectObjectID (contentID : Index.ID) : ID := ⟨contentID,0,false⟩

def Compressed (objectID : ID) : ID := { objectID with compression := true }

def IndirectObjectID (indexObjectID : ID) : ID := { indexObjectID with indirection := indexObjectID.indirection + 1 }

structure IndirectObjectEntry where
  Start : Int
  Length : Int
  Object : ID
deriving DecidableEq

def IndirectObjectEntry.endOffset (i : IndirectObjectEntry) : Int := i.Start + i.Length

end Vbe.Objects
