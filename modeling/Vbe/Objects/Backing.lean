import Vbe.Objects.Stored

/-! The contents that an object is checked for and those that reading it fetches. What is fetched
has always been checked, so a store that keeps what is checked can be read; an object that holds
what its indexes say is checked for exactly what is fetched. -/
namespace Vbe.Objects
open Vbe.Index (Bytes)
open Vbe.Library

section Within
variable {f : Formats} {cr : ContentReader} {kept : List Index.ID} {α β : Type}

/-- A run asks for kept contents only. -/
abbrev Within (kept : List Index.ID) (Q : α → Prop) : List Index.ID → α → Prop := fun questions a => questions ⊆ kept ∧ Q a

theorem within_answer {store : Index.ID → Except ContentError Bytes} {a : α} {Q : α → Prop} (holds : Q a) :
    (pure a : Fetch α).Holds store (Within kept Q) := .answer ⟨List.nil_subset _,holds⟩

theorem within_bind {store : Index.ID → Except ContentError Bytes} {p : Fetch α} {g : α → Fetch β} {Q : α → Prop} {R : β → Prop}
    (first : p.Holds store (Within kept Q)) (rest : ∀ a, Q a → (g a).Holds store (Within kept R)) :
    (p >>= g).Holds store (Within kept R) := by
  refine first.bind ?_
  intro questions a ⟨inside,holds⟩
  refine (rest a holds).imp ?_
  intro more b ⟨inside',holds'⟩
  exact ⟨List.append_subset.mpr ⟨inside,inside'⟩,holds'⟩

def Verified (f : Formats) (cr : ContentReader) (kept : List Index.ID) (oid : ID) : Prop :=
  ∃ n ids, VerifyObject f cr n oid = .ok ids ∧ ids ⊆ kept

def Reader.Verified (f : Formats) (cr : ContentReader) (kept : List Index.ID) : Reader → Prop
  | .withData _ _ => True
  | .object r => ∀ e ∈ r.seekTable, Objects.Verified f cr kept e.Object

variable {fetch : IndirectObjectEntry → Fetch Bytes} {read : Reader → Nat → Fetch (Bytes × Reader)}

theorem readChunks_within {ahead : List IndirectObjectEntry}
    (fetches : ∀ e ∈ ahead, (fetch e).Holds cr.GetContent (Within kept fun _ => True)) (r : ObjectReader) (remaining : Nat) :
    (r.readChunks fetch ahead remaining).Holds cr.GetContent (Within kept fun result => result.2.seekTable = r.seekTable) := by
  induction ahead generalizing r remaining with
  | nil => exact within_answer rfl
  | cons st ahead ih =>
    have opened : (r.openedChunk fetch st).Holds cr.GetContent (Within kept fun _ => True) := by
      rw [ObjectReader.openedChunk]
      cases r.currentChunkData with
      | none => exact within_bind (fetches st List.mem_cons_self) fun _ _ => within_answer trivial
      | some data => exact within_answer trivial
    rw [ObjectReader.readChunks]
    apply within_bind opened
    rintro ⟨data,position⟩ _
    dsimp only
    split
    · exact within_answer rfl
    · exact within_bind (ih (fun e member => fetches e (List.mem_cons_of_mem _ member)) _ _) fun _ same => within_answer same

theorem readFull_within (reads : ∀ r size, r.Verified f cr kept →
      (read r size).Holds cr.GetContent (Within kept fun result => result.2.Verified f cr kept))
    {rd : Reader} (verified : rd.Verified f cr kept) (n want : Nat) :
    (readFull read n rd want).Holds cr.GetContent (Within kept fun _ => True) := by
  induction n generalizing rd want with
  | zero =>
    cases want with
    | zero => exact within_answer trivial
    | succ want => exact .fail _ _
  | succ n ih =>
    cases want with
    | zero => exact within_answer trivial
    | succ want =>
      rw [readFull]
      apply within_bind (reads rd (want + 1) verified)
      rintro ⟨bytes,rd⟩ verified
      dsimp only at verified ⊢
      split
      · exact .fail _ _
      · exact within_bind (ih verified _) fun _ _ => within_answer trivial

theorem readAll_within (reads : ∀ r size, r.Verified f cr kept →
      (read r size).Holds cr.GetContent (Within kept fun result => result.2.Verified f cr kept))
    {rd : Reader} (verified : rd.Verified f cr kept) (sizes : List ℕ+) :
    (readAll read sizes rd).Holds cr.GetContent (Within kept fun _ => True) := by
  induction sizes generalizing rd with
  | nil => exact .fail _ _
  | cons size sizes ih =>
    rw [readAll]
    apply within_bind (reads rd size verified)
    rintro ⟨bytes,rd⟩ verified
    dsimp only at verified ⊢
    split
    · exact within_answer trivial
    · exact within_bind (ih verified) fun _ _ => within_answer trivial

theorem decode_within (reads : ∀ r size, r.Verified f cr kept →
      (read r size).Holds cr.GetContent (Within kept fun result => result.2.Verified f cr kept))
    {rd : Reader} (verified : rd.Verified f cr kept) (n : Nat) (s : f.json.State) :
    (decode f read n s rd).Holds cr.GetContent (Within kept fun _ => True) := by
  induction n generalizing rd s with
  | zero => exact .fail _ _
  | succ n ih =>
    rw [decode]
    split
    · exact within_answer trivial
    · apply within_bind (reads rd _ verified)
      rintro ⟨bytes,rd⟩ verified
      dsimp only at verified ⊢
      split
      · exact within_answer trivial
      · exact ih verified _

/-- At every level, what is opened and read has been checked. -/
theorem level_within (f : Formats) (cr : ContentReader) (kept : List Index.ID) (n : Nat) :
    (∀ oid k, Verified f cr kept oid →
      ((level f n).openAndAssertLength oid k).Holds cr.GetContent (Within kept fun r => r.Verified f cr kept)) ∧
    ∀ r size, r.Verified f cr kept →
      ((level f n).Read r size).Holds cr.GetContent (Within kept fun result => result.2.Verified f cr kept) := by
  induction n with
  | zero => exact ⟨fun _ _ _ => .fail _ _,fun _ _ _ => .fail _ _⟩
  | succ n ih =>
    obtain ⟨opens,reads⟩ := ih
    constructor
    · rintro oid k ⟨m,ids,verified,inside⟩
      cases kind : oid.IndexObjectID with
      | none =>
        have direct := ContentID_of_IndexObjectID kind
        rw [VerifyObject_direct verified direct] at inside
        rw [level_open_direct f kind,newRawReader,direct]
        apply Query.Holds.ask
        cases cr.GetContent oid.cid with
        | error e => cases e with | notFound | other => exact .fail _ _
        | ok payload =>
          dsimp only
          split
          · exact .fail _ _
          · split
            · exact .fail _ _
            · exact .answer ⟨inside,trivial⟩
      | some index =>
        obtain ⟨m,backing,seekTable,entries,rfl,first,load,each,rfl⟩ := VerifyObject_indirect verified kind
        obtain ⟨ofIndex,ofEntries⟩ := List.append_subset.mp inside
        have loads : ((level f n).LoadIndexObject f n index).Holds cr.GetContent (Within kept fun table => table = seekTable) := by
          have asks : ((level f n).LoadIndexObject f n index).Holds cr.GetContent (Within kept fun _ => True) := by
            rw [Level.LoadIndexObject,Level.readIndexObject]
            apply within_bind (Q := fun _ => True) _ fun _ _ => within_answer trivial
            apply within_bind (opens index (-1) ⟨m,backing,first,ofIndex⟩)
            intro rd verified
            apply within_bind (decode_within reads verified _ _)
            rintro ⟨decoded,rd⟩ _
            cases decoded with
            | none => exact .fail _ _
            | some table => exact within_answer trivial
          intro table answered
          exact ⟨(asks table answered).1,LoadIndexObject_unique load answered⟩
        rw [level_open_indirect f kind]
        apply within_bind loads
        rintro table rfl
        cases table.getLast? with
        | none => exact .fail _ _
        | some last =>
          apply within_answer
          intro e member
          obtain ⟨part,listed,own⟩ := Results.mapM_rounds each e member
          exact ⟨m,part,own,fun c there => ofEntries (List.mem_flatten.mpr ⟨part,listed,there⟩)⟩
    · intro r size verified
      rw [level]
      cases r with
      | withData data position => exact within_answer trivial
      | object r =>
        have fetches (e : IndirectObjectEntry) (member : e ∈ r.seekTable.drop r.currentChunkIndex) :
            ((level f n).openCurrentChunk e).Holds cr.GetContent (Within kept fun _ => True) := by
          rw [Level.openCurrentChunk]
          apply within_bind (opens e.Object e.Length (verified e (List.mem_of_mem_drop member)))
          intro rd verified
          split
          · exact .fail _ _
          · exact within_bind (readFull_within reads verified _ _) fun _ _ => within_answer trivial
        have read : (r.Read (level f n).openCurrentChunk size).Holds cr.GetContent
            (Within kept fun result => result.2.seekTable = r.seekTable) := by
          rw [ObjectReader.Read]
          split
          · exact within_answer rfl
          · split
            · exact within_answer rfl
            · exact readChunks_within fetches r size
        apply within_bind read
        rintro ⟨bytes,r'⟩ same
        apply within_answer
        intro e member
        exact verified e (same ▸ member)

theorem readObject_within {n m : Nat} {oid : ID} {ids : List Index.ID} (verified : VerifyObject f cr n oid = .ok ids) (sizes : List ℕ+) :
    (readObject f m oid sizes).Holds cr.GetContent (Within ids fun _ => True) := by
  obtain ⟨opens,reads⟩ := level_within f cr ids m
  exact within_bind (opens oid (-1) ⟨n,ids,verified,fun _ member => member⟩) fun r verified => readAll_within reads verified sizes

end Within

section Whole
variable {f : Formats} {cr : ContentReader}

/-- An object that holds what its indexes say is fetched whole. -/
theorem readObject_whole {n m : Nat} {oid : ID} {ids : List Index.ID} {bytes held : Bytes} {sizes : List ℕ+}
    (stored : Stored f cr True oid held) (verified : VerifyObject f cr n oid = .ok ids)
    (done : (readObject f m oid sizes).outcome cr.GetContent = .ok bytes) :
    bytes = held ∧ ids ⊆ (readObject f m oid sizes).asked cr.GetContent := by
  obtain ⟨N,opens⟩ := open_stored stored
  have raised := readObject_refines f (Nat.le_max_left m (N + 1)) oid sizes cr.GetContent (by rw [done]; exact fun same => nomatch same)
  obtain ⟨k,top⟩ : ∃ k, max m (N + 1) = k + 1 := ⟨max m (N + 1) - 1,by omega⟩
  rw [top] at raised
  obtain ⟨r,opened,serves,_⟩ := opens k (by omega) (-1) (.inl rfl)
  obtain ⟨r',first,rest⟩ := Query.outcome_bind_ok.mp (raised.1.trans done)
  cases Except.ok.inj (opened.1.symm.trans first)
  have read := serves.readAll (Nat.le_refl k) rest
  rw [← Set.sdiff_empty (s := r.owed _)] at read
  have both : (readObject f (k + 1) oid sizes).Gives cr.GetContent held (Due f cr True oid \ ∅) := opened.bind_diff read
  refine ⟨Except.ok.inj ((raised.1.trans done).symm.trans both.1),fun c member => ?_⟩
  rw [← raised.2]
  exact both.2 c ⟨⟨trivial,n,ids,verified,member⟩,id⟩

end Whole

/-- The contents an object is checked for are all that reading it needs, and no more for an object that holds
what its indexes say and whose indexes are read to their ends. -/
theorem verifyObject_covers (f : Formats) (cr : ContentReader) (oid : ID) (n m : Nat) (ids : List Index.ID) (sizes : List ℕ+) (bytes : Bytes)
    (verified : VerifyObject f cr n oid = .ok ids) (done : (readObject f m oid sizes).outcome cr.GetContent = .ok bytes) :
    (∀ c ∈ (readObject f m oid sizes).asked cr.GetContent, c ∈ ids) ∧
      (∀ cr' : ContentReader, (∀ c ∈ ids, cr'.GetContent c = cr.GetContent c) →
        (readObject f m oid sizes).outcome cr'.GetContent = .ok bytes) ∧
      ∀ held, Stored f cr True oid held →
        bytes = held ∧ ∀ c ∈ ids, c ∈ (readObject f m oid sizes).asked cr.GetContent := by
  have fetched := (readObject_within verified sizes bytes done).1
  refine ⟨fun c member => fetched member,?_,fun held stored => readObject_whole stored verified done⟩
  intro cr' agree
  rw [(Query.run_congr fun c member => agree c (fetched member)).1,done]

section Examples

/-- A decoder that knows one text, which it reads into buffers of 512 bytes. -/
def knows (text : Bytes) (entries : List IndirectObjectEntry) : Decoder where
  State := Bytes
  NewDecoder := []
  next := fun read => if read = text then .inr (some entries) else .inl 512
  read := fun read bytes => read ++ bytes
  eof := fun _ => none
  room := by
    intro s size next
    split at next
    · contradiction
    · cases Sum.inl.inj next
      decide

def ascii (s : String) : Bytes := s.toList.map fun c => UInt8.ofNat c.toNat

/-- An index under one content, and two contents that it may list. -/
def indexed (text : Bytes) : ContentReader where
  ContentInfo := fun c => .ok ⟨[112],0,3,3,0,0,c,false,2,0⟩
  GetContent := fun c =>
    if c = ⟨120,[0x0b]⟩ then .ok text
    else if c = ⟨0,[0xa1]⟩ then .ok [1,2,3]
    else if c = ⟨0,[0xa2]⟩ then .ok [4,5]
    else .error .notFound

def indexedObject : ID := IndirectObjectID (DirectObjectID ⟨120,[0x0b]⟩)

def wholeText : Bytes := ascii "\x7b\"stream\":\"kopia:indirect\",\"entries\":[\x7b\"l\":3,\"o\":\"a1\"\x7d,\x7b\"s\":3,\"l\":2,\"o\":\"a2\"\x7d]\x7d\n"

def wholeFormats : Formats :=
  ⟨knows wholeText [⟨0,3,DirectObjectID ⟨0,[0xa1]⟩⟩,⟨3,2,DirectObjectID ⟨0,[0xa2]⟩⟩],fun _ => none⟩

theorem whole_stored : Stored wholeFormats (indexed wholeText) True indexedObject [1,2,3,4,5] := by
  have first : Stored wholeFormats (indexed wholeText) True (DirectObjectID ⟨0,[0xa1]⟩) [1,2,3] := .direct rfl rfl rfl
  have second : Stored wholeFormats (indexed wholeText) True (DirectObjectID ⟨0,[0xa2]⟩) [4,5] := .direct rfl rfl rfl
  have index : Stored wholeFormats (indexed wholeText) True (DirectObjectID ⟨120,[0x0b]⟩) wholeText := .direct rfl rfl rfl
  have decoded : wholeFormats.json.Decodes wholeText
      [⟨0,3,DirectObjectID ⟨0,[0xa1]⟩⟩,⟨3,2,DirectObjectID ⟨0,[0xa2]⟩⟩] [] := ⟨2,by decide +kernel⟩
  let chunk : IndirectObjectEntry → Bytes := fun e => if e.Start = 0 then [1,2,3] else [4,5]
  have entries : ∀ e ∈ [⟨0,3,DirectObjectID ⟨0,[0xa1]⟩⟩,⟨3,2,DirectObjectID ⟨0,[0xa2]⟩⟩],
      Stored wholeFormats (indexed wholeText) True e.Object (chunk e) := by
    intro e member
    rcases List.mem_pair.mp member with rfl | rfl
    · exact first
    · exact second
  exact Stored.indirect rfl index decoded (fun _ => .inl rfl) entries (by decide) (fun _ => by decide) rfl rfl

theorem verifyObject_covers_whole :
    (∀ c ∈ (readObject wholeFormats 4 indexedObject [4,4,4]).asked (indexed wholeText).GetContent,
        c ∈ [⟨120,[0x0b]⟩,⟨0,[0xa1]⟩,⟨0,[0xa2]⟩]) ∧
      (∀ cr' : ContentReader, (∀ c ∈ [⟨120,[0x0b]⟩,⟨0,[0xa1]⟩,⟨0,[0xa2]⟩], cr'.GetContent c = (indexed wholeText).GetContent c) →
        (readObject wholeFormats 4 indexedObject [4,4,4]).outcome cr'.GetContent = .ok [1,2,3,4,5]) ∧
      (([1,2,3,4,5] : Bytes) = [1,2,3,4,5] ∧ ∀ c ∈ [⟨120,[0x0b]⟩,⟨0,[0xa1]⟩,⟨0,[0xa2]⟩],
        c ∈ (readObject wholeFormats 4 indexedObject [4,4,4]).asked (indexed wholeText).GetContent) := by
  obtain ⟨fetched,kept,held⟩ := verifyObject_covers wholeFormats (indexed wholeText) indexedObject 3 4
    [⟨120,[0x0b]⟩,⟨0,[0xa1]⟩,⟨0,[0xa2]⟩] [4,4,4] [1,2,3,4,5] (by decide +kernel) (by decide +kernel)
  exact ⟨fetched,kept,held [1,2,3,4,5] whole_stored⟩

def emptyText : Bytes := ascii "\x7b\"stream\":\"kopia:indirect\",\"entries\":[\x7b\"o\":\"a1\"\x7d]\x7d\n"

def emptyFormats : Formats := ⟨knows emptyText [⟨0,0,DirectObjectID ⟨0,[0xa1]⟩⟩],fun _ => none⟩

/-- The content of an entry without bytes is checked and never fetched. -/
theorem verifyObject_exceeds : ¬ ∀ (f : Formats) (cr : ContentReader) (oid : ID) (n m : Nat) (ids : List Index.ID) (sizes : List ℕ+)
    (bytes : Bytes), VerifyObject f cr n oid = .ok ids → (readObject f m oid sizes).outcome cr.GetContent = .ok bytes →
    ∀ c, c ∈ ids ↔ c ∈ (readObject f m oid sizes).asked cr.GetContent := by
  intro exact'
  have same := exact' emptyFormats (indexed emptyText) indexedObject 3 4 [⟨120,[0x0b]⟩,⟨0,[0xa1]⟩] [512] []
    (by decide +kernel) (by decide +kernel) ⟨0,[0xa1]⟩
  revert same
  decide +kernel

end Examples

end Vbe.Objects
