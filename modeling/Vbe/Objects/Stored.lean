import Vbe.Objects.Levels

/-! What an object holds. An object whose indexes list the parts with their lengths is opened
and read in full, into buffers of any size. -/
namespace Vbe.Objects
open Vbe.Index (Bytes)
open Vbe.Library

section Stored
variable (f : Formats) (cr : ContentReader) (whole : Prop)

/-- The object of an identifier holds these bytes. Where it is asked for, the decoder reads an
index that consists of several contents to its end. -/
inductive Stored : ID → Bytes → Prop
  | direct {oid : ID} {contentID : Index.ID} {compressed : Bool} {payload bytes : Bytes}
      (direct : oid.ContentID = some (contentID,compressed)) (found : cr.GetContent contentID = .ok payload)
      (plain : (if compressed then f.DecompressByHeader payload else some payload) = some bytes) : Stored oid bytes
  | indirect {oid index : ID} {text left : Bytes} {seekTable : List IndirectObjectEntry} {last : IndirectObjectEntry}
      {chunk : IndirectObjectEntry → Bytes} (indirect : oid.IndexObjectID = some index) (listed : Stored index text)
      (decoded : f.json.Decodes text seekTable left) (read : whole → index.IndexObjectID = none ∨ left = [])
      (entries : ∀ e ∈ seekTable, Stored e.Object (chunk e))
      (lengths : ∀ e ∈ seekTable, e.Length = (chunk e).length) (filled : whole → ∀ e ∈ seekTable, chunk e ≠ [])
      (final : seekTable.getLast? = some last) (total : last.endOffset = (seekTable.flatMap chunk).length) :
      Stored oid (seekTable.flatMap chunk)

/-- What `VerifyObject` returns for an object, if all of it is to be read. -/
def Due (oid : ID) : Set Index.ID := {c | whole ∧ ∃ n ids, VerifyObject f cr n oid = .ok ids ∧ c ∈ ids}

abbrev IndirectObjectEntry.Due (st : IndirectObjectEntry) : Set Index.ID := Objects.Due f cr whole st.Object

end Stored

section Open
variable {f : Formats} {cr : ContentReader} {whole : Prop} {oid index : ID} {n : Nat}

theorem IndexObjectID_of_ContentID {content : Index.ID × Bool} (direct : oid.ContentID = some content) : oid.IndexObjectID = none := by
  rw [ID.ContentID] at direct
  split at direct
  · contradiction
  next level => rw [ID.IndexObjectID,if_neg level]

theorem ContentID_of_IndexObjectID (direct : oid.IndexObjectID = none) : oid.ContentID = some (oid.cid,oid.compression) := by
  rw [ID.IndexObjectID] at direct
  split at direct
  · contradiction
  next level => rw [ID.ContentID,if_neg level]

theorem run_more {json : Decoder} {reads reads' : Nat} {s : json.State} {left : Bytes}
    {result : Option (List IndirectObjectEntry) × Bytes} (run : json.run reads s left = some result) (more : reads ≤ reads') :
    json.run reads' s left = some result := by
  induction reads generalizing reads' s left with
  | zero => contradiction
  | succ reads ih =>
    obtain ⟨k,rfl⟩ : ∃ k, reads' = k + 1 := ⟨reads' - 1,by omega⟩
    rw [Decoder.run] at run ⊢
    cases step : json.next s with
    | inr decoded =>
      rw [step] at run
      exact run
    | inl size =>
      rw [step] at run
      dsimp only at run ⊢
      split at run
      next empty => rw [if_pos empty]; exact run
      next some => rw [if_neg some]; exact ih run (by omega)

/-- A raw reader holds the content. -/
theorem newRawReader_gives {contentID : Index.ID} {compressed : Bool} {payload bytes : Bytes} (direct : oid.ContentID = some (contentID,compressed))
    (found : cr.GetContent contentID = .ok payload)
    (plain : (if compressed then f.DecompressByHeader payload else some payload) = some bytes) {k : Int} (asserted : k = -1 ∨ k = bytes.length) :
    (newRawReader f oid k).Gives cr.GetContent (.withData bytes 0) {contentID} := by
  rw [newRawReader,direct]
  constructor
  · simp only [Query.outcome_ask,found,plain]
    rw [if_neg (by omega)]
    rfl
  · intro c same
    rw [Set.mem_singleton_iff.mp same,Query.asked]
    exact List.mem_cons_self

theorem VerifyObject_direct {ids : List Index.ID} {contentID : Index.ID} {compressed : Bool}
    (verified : VerifyObject f cr n oid = .ok ids) (direct : oid.ContentID = some (contentID,compressed)) : ids = [contentID] := by
  cases n with
  | zero => contradiction
  | succ n =>
    rw [VerifyObject,iterateBackingContents,IndexObjectID_of_ContentID direct,direct] at verified
    dsimp only at verified
    cases info : cr.ContentInfo contentID with
    | error e =>
      rw [info] at verified
      contradiction
    | ok _ =>
      rw [info] at verified
      exact (Except.ok.inj verified).symm

/-- The contents of an indirect object: those of its index, and those of each entry. -/
theorem VerifyObject_indirect {ids : List Index.ID} (verified : VerifyObject f cr n oid = .ok ids) (indirect : oid.IndexObjectID = some index) :
    ∃ m backing seekTable entries, n = m + 1 ∧ VerifyObject f cr m index = .ok backing ∧
      ((level f m).LoadIndexObject f m index).outcome cr.GetContent = .ok seekTable ∧
      seekTable.mapM (fun e => VerifyObject f cr m e.Object) = .ok entries ∧ ids = backing ++ entries.flatten := by
  cases n with
  | zero => contradiction
  | succ n =>
    rw [VerifyObject,iterateBackingContents,indirect] at verified
    dsimp only at verified
    obtain ⟨backing,first,rest⟩ := Results.bind_ok.mp verified
    obtain ⟨seekTable,load,rest⟩ := Results.bind_ok.mp rest
    obtain ⟨entries,each,rest⟩ := Results.bind_ok.mp rest
    exact ⟨n,backing,seekTable,entries,rfl,first,load,each,(Except.ok.inj rest).symm⟩

/-- A bound that is enough for each of finitely many objects. -/
theorem common_bound {l : List IndirectObjectEntry} {P : Nat → IndirectObjectEntry → Prop} (each : ∀ e ∈ l, ∃ N, ∀ n, N ≤ n → P n e) :
    ∃ N, ∀ n, N ≤ n → ∀ e ∈ l, P n e := by
  induction l with
  | nil => exact ⟨0,fun _ _ e member => absurd member List.not_mem_nil⟩
  | cons e l ih =>
    obtain ⟨N,head⟩ := each e List.mem_cons_self
    obtain ⟨N',tail⟩ := ih fun e member => each e (List.mem_cons_of_mem _ member)
    refine ⟨max N N',fun n enough e' member => ?_⟩
    rcases List.mem_cons.mp member with rfl | later
    · exact head n (by omega)
    · exact tail n (by omega) e' later

/-- What opening gives one level above a bound. -/
def Opens (f : Formats) (cr : ContentReader) (whole : Prop) (oid : ID) (bytes : Bytes) (m : Nat) : Prop :=
  ∀ k : Int, k = -1 ∨ k = bytes.length → ∃ r : Reader,
    ((level f (m + 1)).openAndAssertLength oid k).Gives cr.GetContent r
        (Due f cr whole oid \ r.owed (IndirectObjectEntry.Due f cr whole)) ∧
      r.Serves f cr.GetContent (IndirectObjectEntry.Due f cr whole) m bytes ∧ r.Length = bytes.length ∧
      (oid.IndexObjectID = none → r.owed (IndirectObjectEntry.Due f cr whole) = ∅)

theorem Opens.openCurrentChunk {st : IndirectObjectEntry} {chunk : Bytes} {m : Nat} (opens : Opens f cr whole st.Object chunk m)
    (length : st.Length = chunk.length) :
    ((level f (m + 1)).openCurrentChunk st).Gives cr.GetContent chunk (st.Due f cr whole) := by
  obtain ⟨r,opened,serves,_⟩ := opens st.Length (.inr length)
  have want : st.Length.toNat = chunk.length := by omega
  obtain ⟨r',read,serves'⟩ := serves.readFull (Nat.le_refl m) (Nat.le_refl chunk.length) (Nat.le_refl chunk.length)
  rw [List.drop_length] at serves'
  rw [List.take_length,serves'.owed_end] at read
  rw [← Set.sdiff_empty (s := st.Due f cr whole),Level.openCurrentChunk]
  apply opened.bind_diff
  rw [if_neg (by omega),want]
  exact read.bind_answer rfl

/-- Loading an index reads all of it where that is asked for. -/
theorem Opens.LoadIndexObject {text left : Bytes} {seekTable : List IndirectObjectEntry} {m reads : Nat}
    (opens : Opens f cr whole index text m) (decoded : f.json.run reads f.json.NewDecoder text = some (some seekTable,left))
    (read : whole → index.IndexObjectID = none ∨ left = []) :
    ((level f (m + 1)).LoadIndexObject f reads index).Gives cr.GetContent seekTable (Due f cr whole index) := by
  obtain ⟨r,opened,serves,_,plain⟩ := opens (-1) (.inl rfl)
  obtain ⟨r',decodes,serves'⟩ := serves.decode (Nat.le_refl m) decoded
  have finished (c : Index.ID) (due : c ∈ Due f cr whole index) (before : c ∈ r.owed (IndirectObjectEntry.Due f cr whole)) :
      c ∉ r'.owed (IndirectObjectEntry.Due f cr whole) := by
    rcases read due.1 with direct | all
    · rw [plain direct] at before
      exact before.elim
    · subst all
      rw [serves'.owed_end]
      exact id
  rw [Level.LoadIndexObject]
  refine Query.Gives.bind_answer (a := (seekTable,r')) ?_ rfl
  rw [Level.readIndexObject]
  refine Query.Gives.mono (Query.Gives.bind opened (Query.Gives.bind_answer decodes rfl)) ?_
  intro c due
  by_cases before : c ∈ r.owed (IndirectObjectEntry.Due f cr whole)
  · exact .inr ⟨before,finished c due before⟩
  · exact .inl ⟨due,before⟩

theorem opens_direct {contentID : Index.ID} {compressed : Bool} {payload bytes : Bytes} (direct : oid.ContentID = some (contentID,compressed))
    (found : cr.GetContent contentID = .ok payload)
    (plain : (if compressed then f.DecompressByHeader payload else some payload) = some bytes) (m : Nat) :
    Opens f cr whole oid bytes m := by
  intro k asserted
  refine ⟨.withData bytes 0,?_,rfl,rfl,fun _ => rfl⟩
  rw [level_open_direct f (IndexObjectID_of_ContentID direct)]
  apply (newRawReader_gives direct found plain asserted).mono
  rintro c ⟨⟨_,n,ids,verified,member⟩,_⟩
  rw [VerifyObject_direct verified direct] at member
  exact List.mem_singleton.mp member

/-- An index has one seek table, whatever the bounds on loading it. -/
theorem LoadIndexObject_unique {seekTable seekTable' : List IndirectObjectEntry} {n m : Nat}
    (load : ((level f n).LoadIndexObject f n index).outcome cr.GetContent = .ok seekTable)
    (load' : ((level f m).LoadIndexObject f m index).outcome cr.GetContent = .ok seekTable') : seekTable' = seekTable := by
  have raised {k : Nat} {table : List IndirectObjectEntry} (more : k ≤ max n m)
      (load : ((level f k).LoadIndexObject f k index).outcome cr.GetContent = .ok table) :
      ((level f (max n m)).LoadIndexObject f (max n m) index).outcome cr.GetContent = .ok table := by
    obtain ⟨opens,reads⟩ := level_refines f more
    exact (LoadIndexObject_refines f opens reads more index).answered load
  exact Except.ok.inj ((raised (Nat.le_max_right n m) load').symm.trans (raised (Nat.le_max_left n m) load))

/-- An object that is stored can be opened from some bound on. -/
theorem open_stored {bytes : Bytes} (stored : Stored f cr whole oid bytes) : ∃ N, ∀ m, N ≤ m → Opens f cr whole oid bytes m := by
  induction stored with
  | direct direct found plain => exact ⟨0,fun m _ => opens_direct direct found plain m⟩
  | @indirect oid index text left seekTable last chunk indirect listed decoded read entries lengths filled final total ihIndex ihEntries =>
    obtain ⟨N,opensIndex⟩ := ihIndex
    obtain ⟨N',opensEntries⟩ := common_bound ihEntries
    obtain ⟨reads,run⟩ := decoded
    have loads (m : Nat) (enough : max N reads + 1 ≤ m) :
        ((level f m).LoadIndexObject f m index).Gives cr.GetContent seekTable (Due f cr whole index) := by
      obtain ⟨m,rfl⟩ : ∃ k, m = k + 1 := ⟨m - 1,by omega⟩
      exact (opensIndex m (by omega)).LoadIndexObject (run_more run (by omega)) read
    refine ⟨max (max N reads + 1) (N' + 1),fun m enough k asserted => ?_⟩
    refine ⟨.object (newObjectReader seekTable last),?_,⟨chunk,?_⟩,total,fun direct => ?_⟩
    · rw [level_open_indirect f indirect]
      apply Query.Gives.bind_answer ((loads m (by omega)).mono _) (by rw [final])
      rintro c ⟨⟨all,n,ids,verified,member⟩,outside⟩
      obtain ⟨n,backing,seekTable',parts,rfl,first,load,each,rfl⟩ := VerifyObject_indirect verified indirect
      obtain rfl := LoadIndexObject_unique (loads _ (Nat.le_refl _)).1 load
      rcases List.mem_append.mp member with before | later
      · exact ⟨all,n,backing,first,before⟩
      · obtain ⟨part,inside,here⟩ := List.mem_flatten.mp later
        obtain ⟨e,listed,own⟩ := Results.mapM_mem each part inside
        refine absurd ⟨e,?_,all,n,part,own,here⟩ outside
        exact listed
    · refine ⟨?_,fun e member none => ?_,fun some => absurd rfl some,rfl,?_⟩
      · rintro fetch ⟨n,above,rfl⟩ e member
        obtain ⟨n,rfl⟩ : ∃ k, n = k + 1 := ⟨n - 1,by omega⟩
        exact (opensEntries n (by omega) e member).openCurrentChunk (lengths e member)
      · exact Set.eq_empty_of_forall_notMem fun c due => filled due.1 e member none
      · rw [newObjectReader,total,zero_add]
    · rw [indirect] at direct
      contradiction

end Open

end Vbe.Objects
