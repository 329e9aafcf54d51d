import Vbe.Library.Results
import Vbe.Objects.Reader

/-! Readers at different bounds, which read alike where the lower one is enough, and what is left
to read from a reader whose chunks can be opened. -/
namespace Vbe.Objects
open Vbe.Index (Bytes)
open Vbe.Library


section Refines
variable {fetch fetch' : IndirectObjectEntry → Fetch Bytes} {read read' : Reader → Nat → Fetch (Bytes × Reader)}

theorem readChunks_refines (refines : ∀ st, (fetch' st).Refines .unfinished (fetch st)) (ahead : List IndirectObjectEntry)
    (r : ObjectReader) (remaining : Nat) :
    (r.readChunks fetch' ahead remaining).Refines .unfinished (r.readChunks fetch ahead remaining) := by
  induction ahead generalizing r remaining with
  | nil => exact .refl _
  | cons st ahead ih =>
    rw [ObjectReader.readChunks,ObjectReader.readChunks]
    apply Query.Refines.bind
    · rw [ObjectReader.openedChunk,ObjectReader.openedChunk]
      cases r.currentChunkData with
      | none => exact (refines st).bind fun b => .refl _
      | some data => exact .refl _
    · rintro ⟨data,position⟩
      dsimp only
      split
      · exact .refl _
      · exact (ih _ _).bind fun _ => .refl _

theorem readFull_refines (refines : ∀ r size, (read' r size).Refines .unfinished (read r size)) (reads : Nat) (rd : Reader) (want : Nat) :
    (readFull read' reads rd want).Refines .unfinished (readFull read reads rd want) := by
  induction reads generalizing rd want with
  | zero => cases want <;> exact .refl _
  | succ reads ih =>
    cases want with
    | zero => exact .refl _
    | succ want =>
      rw [readFull,readFull]
      apply (refines rd (want + 1)).bind
      rintro ⟨bytes,rd⟩
      dsimp only
      split
      · exact .refl _
      · exact (ih rd _).bind fun _ => .refl _

variable (f : Formats)

theorem decode_refines (refines : ∀ r size, (read' r size).Refines .unfinished (read r size)) {reads reads' : Nat}
    (more : reads ≤ reads') (s : f.json.State) (r : Reader) :
    (decode f read' reads' s r).Refines .unfinished (decode f read reads s r) := by
  induction reads generalizing reads' s r with
  | zero => exact Query.refines_fail _
  | succ reads ih =>
    obtain ⟨reads',rfl⟩ : ∃ k, reads' = k + 1 := ⟨reads' - 1,by omega⟩
    rw [decode,decode]
    cases f.json.next s with
    | inr decoded => exact .refl _
    | inl size =>
      apply (refines r size).bind
      rintro ⟨bytes,r⟩
      dsimp only
      split
      · exact .refl _
      · exact ih (by omega) _ r

theorem LoadIndexObject_refines {l l' : Level} (opens : ∀ oid n, (l'.openAndAssertLength oid n).Refines .unfinished (l.openAndAssertLength oid n))
    (reads : ∀ r size, (l'.Read r size).Refines .unfinished (l.Read r size)) {n n' : Nat} (more : n ≤ n') (oid : ID) :
    (l'.LoadIndexObject f n' oid).Refines .unfinished (l.LoadIndexObject f n oid) := by
  rw [Level.LoadIndexObject,Level.LoadIndexObject,Level.readIndexObject,Level.readIndexObject]
  apply Query.Refines.bind _ fun _ => .refl _
  apply (opens oid (-1)).bind
  intro r
  exact (decode_refines f reads more _ r).bind fun _ => .refl _

theorem openCurrentChunk_refines {l l' : Level} (opens : ∀ oid n, (l'.openAndAssertLength oid n).Refines .unfinished (l.openAndAssertLength oid n))
    (reads : ∀ r size, (l'.Read r size).Refines .unfinished (l.Read r size)) (st : IndirectObjectEntry) :
    (l'.openCurrentChunk st).Refines .unfinished (l.openCurrentChunk st) := by
  rw [Level.openCurrentChunk,Level.openCurrentChunk]
  apply (opens st.Object st.Length).bind
  intro rd
  split
  · exact .refl _
  · exact (readFull_refines reads _ rd _).bind fun _ => .refl _

theorem level_open_direct {oid : ID} (direct : oid.IndexObjectID = none) (n : Nat) (k : Int) :
    (level f (n + 1)).openAndAssertLength oid k = newRawReader f oid k := by
  rw [level]
  dsimp only
  rw [direct]

theorem level_open_indirect {oid index : ID} (indirect : oid.IndexObjectID = some index) (n : Nat) (k : Int) :
    (level f (n + 1)).openAndAssertLength oid k = (level f n).LoadIndexObject f n index >>= fun seekTable =>
      match seekTable.getLast? with
      | none => .fail .panicked
      | some last => return .object (newObjectReader seekTable last) := by
  rw [level]
  dsimp only
  split
  next index' found =>
    cases found.symm.trans indirect
    rfl
  next none =>
    cases none.symm.trans indirect

theorem level_succ_refines (n : Nat) :
    (∀ oid k, ((level f (n + 1)).openAndAssertLength oid k).Refines .unfinished ((level f n).openAndAssertLength oid k)) ∧
      ∀ r size, ((level f (n + 1)).Read r size).Refines .unfinished ((level f n).Read r size) := by
  induction n with
  | zero => exact ⟨fun _ _ => Query.refines_fail _,fun _ _ => Query.refines_fail _⟩
  | succ n ih =>
    obtain ⟨opens,reads⟩ := ih
    constructor
    · intro oid k
      cases kind : oid.IndexObjectID with
      | none =>
        rw [level_open_direct f kind,level_open_direct f kind]
        exact .refl _
      | some index =>
        rw [level_open_indirect f kind,level_open_indirect f kind]
        exact (LoadIndexObject_refines f opens reads (Nat.le_succ n) index).bind fun _ => .refl _
    · intro r size
      rw [level,level]
      cases r with
      | withData data position => exact .refl _
      | object r =>
        apply Query.Refines.bind _ fun _ => .refl _
        rw [ObjectReader.Read,ObjectReader.Read]
        split
        · exact .refl _
        · split
          · exact .refl _
          · exact readChunks_refines (openCurrentChunk_refines opens reads) _ r size

theorem readAll_refines (refines : ∀ r size, (read' r size).Refines .unfinished (read r size)) (sizes : List ℕ+) (r : Reader) :
    (readAll read' sizes r).Refines .unfinished (readAll read sizes r) := by
  induction sizes generalizing r with
  | nil => exact .refl _
  | cons size sizes ih =>
    rw [readAll,readAll]
    apply (refines r size).bind
    rintro ⟨bytes,r⟩
    dsimp only
    split
    · exact .refl _
    · exact (ih r).bind fun _ => .refl _

theorem level_refines {n n' : Nat} (more : n ≤ n') :
    (∀ oid k, ((level f n').openAndAssertLength oid k).Refines .unfinished ((level f n).openAndAssertLength oid k)) ∧
      ∀ r size, ((level f n').Read r size).Refines .unfinished ((level f n).Read r size) := by
  induction more with
  | refl => exact ⟨fun _ _ => .refl _,fun _ _ => .refl _⟩
  | step _ ih =>
    obtain ⟨opens,reads⟩ := level_succ_refines f _
    exact ⟨fun oid k => (opens oid k).trans (ih.1 oid k),fun r size => (reads r size).trans (ih.2 r size)⟩

theorem readObject_refines {n n' : Nat} (more : n ≤ n') (oid : ID) (sizes : List ℕ+) :
    (readObject f n' oid sizes).Refines .unfinished (readObject f n oid sizes) := by
  obtain ⟨opens,reads⟩ := level_refines f more
  exact (opens oid (-1)).bind (readAll_refines reads sizes)

end Refines
section Decoder

/-- The decoder on the bytes that are left to read: what it decodes and what it leaves. -/
def Decoder.run (json : Decoder) : Nat → json.State → Bytes → Option (Option (List IndirectObjectEntry) × Bytes)
  | 0, _, _ => none
  | reads + 1, s, left =>
    match json.next s with
    | .inr decoded => some (decoded,left)
    | .inl size =>
      if left.take size = [] then some (json.eof s,left)
      else json.run reads (json.read s (left.take size)) (left.drop size)

def Decoder.Decodes (json : Decoder) (text : Bytes) (seekTable : List IndirectObjectEntry) (left : Bytes) : Prop :=
  ∃ reads, json.run reads json.NewDecoder text = some (some seekTable,left)

end Decoder

section Serves

namespace ObjectReader

def unopened (r : ObjectReader) : List IndirectObjectEntry :=
  match r.currentChunkData with
  | none => r.seekTable.drop r.currentChunkIndex
  | some _ => r.seekTable.drop (r.currentChunkIndex + 1)

def unread (r : ObjectReader) : Bytes :=
  match r.currentChunkData with
  | none => []
  | some data => data.drop r.currentChunkPosition

/-- The questions that chunks which are not open yet are going to ask. -/
def owed (due : IndirectObjectEntry → Set Index.ID) (r : ObjectReader) : Set Index.ID :=
  {c | ∃ e ∈ r.unopened, c ∈ due e}

/-- What is left to read from a reader, given what its chunks hold and ask for however they are opened. -/
structure Serves (store : Index.ID → Except ContentError Bytes) (ways : Set (IndirectObjectEntry → Fetch Bytes))
    (chunk : IndirectObjectEntry → Bytes) (due : IndirectObjectEntry → Set Index.ID) (r : ObjectReader) (left : Bytes) : Prop where
  chunks : ∀ fetch ∈ ways, ∀ e ∈ r.seekTable, (fetch e).Gives store (chunk e) (due e)
  filled : ∀ e ∈ r.seekTable, chunk e = [] → due e = ∅
  within : r.currentChunkData ≠ none → r.currentChunkIndex < r.seekTable.length
  bytes : left = r.unread ++ r.unopened.flatMap chunk
  position : r.currentPosition + left.length = r.totalLength

variable {store : Index.ID → Except ContentError Bytes} {ways : Set (IndirectObjectEntry → Fetch Bytes)}
  {fetch : IndirectObjectEntry → Fetch Bytes}
  {chunk : IndirectObjectEntry → Bytes} {due : IndirectObjectEntry → Set Index.ID} {r : ObjectReader} {left : Bytes}

theorem unopened_none (closed : r.currentChunkData = none) : r.unopened = r.seekTable.drop r.currentChunkIndex := by
  rw [unopened,closed]

theorem unopened_some {data : Bytes} (opened : r.currentChunkData = some data) :
    r.unopened = r.seekTable.drop (r.currentChunkIndex + 1) := by
  rw [unopened,opened]

theorem Serves.unopened_subset (r : ObjectReader) {e : IndirectObjectEntry} (member : e ∈ r.unopened) : e ∈ r.seekTable := by
  rw [unopened] at member
  split at member <;> exact List.mem_of_mem_drop member

theorem Serves.owed_end (serves : r.Serves store ways chunk due []) : r.owed due = ∅ := by
  have empty : r.unopened.flatMap chunk = [] := (List.append_eq_nil_iff.mp serves.bytes.symm).2
  apply Set.eq_empty_of_forall_notMem
  rintro c ⟨e,member,ask⟩
  have none : chunk e = [] := List.flatMap_eq_nil_iff.mp empty e member
  rw [serves.filled e (unopened_subset r member) none] at ask
  exact ask

/-- The chunk that is copied from, once it is open. -/
theorem Serves.openedChunk (way : fetch ∈ ways) (serves : r.Serves store ways chunk due left) {st : IndirectObjectEntry} {ahead : List IndirectObjectEntry}
    (next : r.seekTable.drop r.currentChunkIndex = st :: ahead) :
    ∃ data position, (r.openedChunk fetch st).Gives store (data,position)
        (r.owed due \ {c | ∃ e ∈ ahead, c ∈ due e}) ∧ left = data.drop position ++ ahead.flatMap chunk := by
  have member : st ∈ r.seekTable := List.mem_of_mem_drop (next ▸ List.mem_cons_self)
  have bytes := serves.bytes
  rw [ObjectReader.openedChunk]
  cases current : r.currentChunkData with
  | none =>
    rw [unread,current,unopened_none current,next] at bytes
    refine ⟨chunk st,0,Query.Gives.bind_answer ((serves.chunks fetch way st member).mono ?_) rfl,bytes⟩
    rintro c ⟨⟨e,inside,ask⟩,outside⟩
    rw [unopened_none current,next] at inside
    rcases List.mem_cons.mp inside with rfl | later
    · exact ask
    · exact absurd ⟨e,later,ask⟩ outside
  | some data =>
    have rest : r.seekTable.drop (r.currentChunkIndex + 1) = ahead := by
      rw [← List.drop_drop,next]
      rfl
    rw [unread,current,unopened_some current,rest] at bytes
    refine ⟨data,r.currentChunkPosition,(Query.Gives.answer _).mono ?_,bytes⟩
    rintro c ⟨there,outside⟩
    rw [owed,unopened_some current,rest] at there
    exact absurd there outside

theorem Serves.readChunks (way : fetch ∈ ways) (ahead : List IndirectObjectEntry) (serves : r.Serves store ways chunk due left)
    (here : r.seekTable.drop r.currentChunkIndex = ahead) {remaining : Nat} (positive : 0 < remaining) :
    ∃ r', (r.readChunks fetch ahead remaining).Gives store (left.take remaining,r') (r.owed due \ r'.owed due) ∧
      r'.Serves store ways chunk due (left.drop remaining) ∧ r'.totalLength = r.totalLength := by
  induction ahead generalizing r left remaining with
  | nil =>
    have ended : r.currentChunkData = none := by
      by_contra open'
      have inside := serves.within open'
      have outside := List.drop_eq_nil_iff.mp here
      omega
    have empty : left = [] := by
      rw [serves.bytes,unread,unopened,ended]
      simp [here]
    subst empty
    refine ⟨r,?_,by simpa using serves,rfl⟩
    rw [List.take_nil,Set.sdiff_self]
    exact .answer _
  | cons st ahead ih =>
    obtain ⟨data,position,opened,bytes⟩ := serves.openedChunk way here
    have inside : r.currentChunkIndex < r.seekTable.length := by
      by_contra outside
      rw [List.drop_eq_nil_of_le (by omega)] at here
      contradiction
    have rest : r.seekTable.drop (r.currentChunkIndex + 1) = ahead := by
      rw [← List.drop_drop,here]
      rfl
    have size : left.length = (data.length - position) + (ahead.flatMap chunk).length := by
      rw [bytes,List.length_append,List.length_drop]
    have total := serves.position
    rw [ObjectReader.readChunks]
    by_cases full : min (data.length - position) remaining = remaining
    · -- the buffer is full and the chunk stays open
      have fits : remaining ≤ (data.drop position).length := by
        rw [List.length_drop]
        omega
      refine ⟨{ r with
        currentPosition := r.currentPosition + remaining
        currentChunkData := some data
        currentChunkPosition := position + remaining },?_,?_,rfl⟩
      · apply (opened.mono _).bind_answer
        · dsimp only
          rw [full,if_pos rfl,bytes,List.take_append_of_le_length fits]
        · rintro c ⟨there,outside⟩
          refine ⟨there,fun later => outside ?_⟩
          simpa [owed,unopened,rest] using later
      · refine ⟨serves.chunks,serves.filled,fun _ => inside,?_,?_⟩
        · rw [bytes,List.drop_append_of_le_length fits,List.drop_drop]
          simp [unread,unopened,rest]
        · rw [List.length_drop]
          dsimp only
          omega
    · -- the chunk is used up
      have short : min (data.length - position) remaining = data.length - position := by omega
      have passed : ({ r with
          currentPosition := r.currentPosition + (data.length - position : Nat)
          currentChunkData := none
          currentChunkPosition := position + (data.length - position)
          currentChunkIndex := r.currentChunkIndex + 1 } : ObjectReader).Serves store ways chunk due (ahead.flatMap chunk) :=
        ⟨serves.chunks,serves.filled,fun some => absurd rfl some,by simp [unread,unopened,rest],by dsimp only; omega⟩
      obtain ⟨r',more,serves',same⟩ := ih passed rest (show 0 < remaining - (data.length - position) by omega)
      have all : (data.drop position).length = data.length - position := List.length_drop
      have taken : left.take remaining = data.drop position ++ (ahead.flatMap chunk).take (remaining - (data.length - position)) := by
        rw [bytes,List.take_append,List.take_of_length_le (by omega),all]
      have dropped : left.drop remaining = (ahead.flatMap chunk).drop (remaining - (data.length - position)) := by
        rw [bytes,List.drop_append,List.drop_of_length_le (by omega),all,List.nil_append]
      refine ⟨r',opened.bind_diff ?_,dropped ▸ serves',same⟩
      dsimp only
      rw [if_neg full,short,taken]
      refine Query.Gives.bind_answer (more.mono ?_) (by rw [List.take_of_length_le (by omega)])
      rintro c ⟨there,outside⟩
      exact ⟨by simpa [owed,unopened,rest] using there,outside⟩

theorem Serves.Read (way : fetch ∈ ways) (serves : r.Serves store ways chunk due left) {size : Nat} (positive : 0 < size) :
    ∃ r', (r.Read fetch size).Gives store (left.take size,r') (r.owed due \ r'.owed due) ∧
      r'.Serves store ways chunk due (left.drop size) ∧ r'.totalLength = r.totalLength := by
  have position := serves.position
  rw [ObjectReader.Read]
  split
  next ended =>
    have empty : left = [] := List.eq_nil_of_length_eq_zero (by omega)
    subst empty
    refine ⟨r,?_,by simpa using serves,rfl⟩
    rw [List.take_nil,Set.sdiff_self]
    exact .answer _
  next going =>
    rw [if_neg (by omega)]
    exact serves.readChunks way _ rfl positive

end ObjectReader

variable (f : Formats) (store : Index.ID → Except ContentError Bytes) (due : IndirectObjectEntry → Set Index.ID)

/-- What is left to read from a reader at the levels from a bound on. -/
def Reader.Serves (bound : Nat) (left : Bytes) : Reader → Prop
  | .withData data position => left = data.drop position
  | .object r => ∃ chunk, r.Serves store {fetch | ∃ n, bound ≤ n ∧ fetch = (level f n).openCurrentChunk} chunk due left

def Reader.owed : Reader → Set Index.ID
  | .withData _ _ => ∅
  | .object r => r.owed due

variable {f store due} {bound : Nat} {left : Bytes} {r : Reader}

theorem Reader.Serves.owed_end (serves : r.Serves f store due bound []) : r.owed due = ∅ := by
  cases r with
  | withData data position => rfl
  | object r =>
    obtain ⟨chunk,serves⟩ := serves
    exact serves.owed_end

theorem Reader.Serves.Read (serves : r.Serves f store due bound left) {n : Nat} (enough : bound ≤ n) {size : Nat} (positive : 0 < size) :
    ∃ r', ((level f (n + 1)).Read r size).Gives store (left.take size,r') (r.owed due \ r'.owed due) ∧
      r'.Serves f store due bound (left.drop size) := by
  rw [level]
  cases r with
  | withData data position =>
    change left = data.drop position at serves
    subst serves
    refine ⟨.withData data (position + ((data.drop position).take size).length),?_,?_⟩
    · apply (Query.Gives.answer _).mono
      rintro c ⟨absurd,_⟩
      exact absurd.elim
    · change _ = data.drop _
      rw [List.drop_drop,List.length_take]
      by_cases more : size ≤ (data.drop position).length
      · rw [Nat.min_eq_left more]
      · rw [List.drop_of_length_le,List.drop_of_length_le]
        all_goals
          rw [List.length_drop] at *
          omega
  | object r =>
    obtain ⟨chunk,serves⟩ := serves
    have way : (level f n).openCurrentChunk ∈ {fetch | ∃ n, bound ≤ n ∧ fetch = (level f n).openCurrentChunk} := ⟨n,enough,rfl⟩
    obtain ⟨r',gives,serves',_⟩ := serves.Read way positive
    exact ⟨.object r',gives.bind_answer rfl,chunk,serves'⟩

theorem Reader.Serves.readFull (serves : r.Serves f store due bound left) {n : Nat} (enough : bound ≤ n) {reads want : Nat}
    (many : want ≤ reads) (fits : want ≤ left.length) :
    ∃ r', (Objects.readFull (level f (n + 1)).Read reads r want).Gives store (left.take want,r') (r.owed due \ r'.owed due) ∧
      r'.Serves f store due bound (left.drop want) := by
  induction reads generalizing r left want with
  | zero =>
    obtain rfl : want = 0 := by omega
    refine ⟨r,?_,serves⟩
    rw [List.take_zero,Set.sdiff_self]
    exact .answer _
  | succ reads ih =>
    cases want with
    | zero =>
      refine ⟨r,?_,serves⟩
      rw [List.take_zero,Set.sdiff_self]
      exact .answer _
    | succ want =>
      obtain ⟨r1,read,serves1⟩ := serves.Read enough (Nat.succ_pos want)
      have length : (left.take (want + 1)).length = want + 1 := List.length_take_of_le fits
      have some : left.take (want + 1) ≠ [] := fun none => by simp [none] at length
      obtain ⟨r',more,serves'⟩ := ih serves1 (Nat.zero_le reads) (Nat.zero_le _)
      refine ⟨r',?_,by simpa using serves'⟩
      rw [Objects.readFull]
      apply read.bind_diff
      dsimp only
      rw [if_neg some,length,Nat.sub_self]
      exact more.bind_answer (by simp)

theorem Reader.Serves.readAll (serves : r.Serves f store due bound left) {n : Nat} (enough : bound ≤ n) {sizes : List ℕ+} {bytes : Bytes}
    (ended : (Objects.readAll (level f (n + 1)).Read sizes r).outcome store = .ok bytes) :
    (Objects.readAll (level f (n + 1)).Read sizes r).Gives store left (r.owed due) := by
  induction sizes generalizing r left bytes with
  | nil => contradiction
  | cons size sizes ih =>
    obtain ⟨r1,read,serves1⟩ := serves.Read enough size.pos
    rw [Objects.readAll] at ended ⊢
    obtain ⟨⟨b,r2⟩,first,rest⟩ := Query.outcome_bind_ok.mp ended
    cases Except.ok.inj (read.1.symm.trans first)
    by_cases empty : left.take size = []
    · have none : left = [] := by simpa using empty
      subst none
      have nothing : r1.owed due = ∅ := Reader.Serves.owed_end (by simpa using serves1)
      rw [nothing,Set.sdiff_empty] at read
      exact read.bind_answer (by simp)
    · dsimp only at rest
      rw [if_neg empty] at rest
      obtain ⟨more,after,_⟩ := Query.outcome_bind_ok.mp rest
      have tail := ih serves1 after
      rw [← Set.sdiff_empty (s := Reader.owed due r)]
      apply read.bind_diff
      dsimp only
      rw [if_neg empty,Set.sdiff_empty]
      exact tail.bind_answer (by rw [List.take_append_drop])

theorem Reader.Serves.decode (serves : r.Serves f store due bound left) {n : Nat} (enough : bound ≤ n) {reads : Nat} {s : f.json.State}
    {decoded : Option (List IndirectObjectEntry)} {left' : Bytes} (run : f.json.run reads s left = some (decoded,left')) :
    ∃ r', (Objects.decode f (level f (n + 1)).Read reads s r).Gives store (decoded,r') (r.owed due \ r'.owed due) ∧
      r'.Serves f store due bound left' := by
  induction reads generalizing r left s with
  | zero => contradiction
  | succ reads ih =>
    rw [Decoder.run] at run
    rw [Objects.decode]
    cases step : f.json.next s with
    | inr result =>
      rw [step] at run
      cases Option.some.inj run
      refine ⟨r,?_,serves⟩
      rw [Set.sdiff_self]
      exact .answer _
    | inl size =>
      rw [step] at run
      obtain ⟨r1,read,serves1⟩ := serves.Read enough (f.json.room s size step)
      dsimp only at run ⊢
      by_cases empty : left.take size = []
      · have none : left = [] := by
          have positive := f.json.room s size step
          rcases List.take_eq_nil_iff.mp empty with zero | none
          · omega
          · exact none
        subst none
        rw [if_pos empty] at run
        cases Option.some.inj run
        refine ⟨r1,?_,by simpa using serves1⟩
        exact read.bind_answer (by simp)
      · rw [if_neg empty] at run
        obtain ⟨r',more,serves'⟩ := ih serves1 run
        refine ⟨r',read.bind_diff ?_,serves'⟩
        dsimp only
        rw [if_neg empty]
        exact more

end Serves
end Vbe.Objects
