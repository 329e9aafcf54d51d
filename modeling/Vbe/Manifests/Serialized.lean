import Vbe.Library.JsonTokens
import Vbe.Library.Results

/-! Manifests are decoded token by token. Values of unknown fields are not skipped but read as if they were names of fields, so that
only texts are passed over. -/
namespace Vbe.Manifests.Serialized
open Vbe.Library Vbe.Library.Json Vbe.Library.Results

/-- The nesting that package json allows. -/
def maxNestingDepth : Nat := 10000

inductive SerializedError (ε : Type) where
  | endOfInput
  | readingToken (e : TokenError)
  | unexpectedToken (t : Token)
  | wantedDelim (wanted got : Delim)
  | wantedFieldName (t : Token)
  | repeatedEntries
  | readingElement (e : TokenError)
  | decodingElement (e : ε)

/-- Of the letters in `entries`, only s has a fold that is not of ASCII. -/
def foldRune (c : Char) : Char := if c = 'ſ' then 's' else c.toLower

/-- Equal to `entries` under folding. -/
def isEntries (l : String) : Bool := l.toList.map foldRune = "entries".toList

section Functions
variable {E ε : Type} (limit : Nat) (element : Value → Except ε E)

def expectDelimToken (dec : Decoder) (expectedToken : Delim) : Except (SerializedError ε) Decoder :=
  match dec.Token with
  | .error .eof => .error .endOfInput
  | .error e => .error (.readingToken e)
  | .ok (.delim d,dec) => if d = expectedToken then .ok dec else .error (.wantedDelim expectedToken d)
  | .ok (t,_) => .error (.unexpectedToken t)

def stringToken (dec : Decoder) : Except (SerializedError ε) (String × Decoder) :=
  match dec.Token with
  | .error .eof => .error .endOfInput
  | .error e => .error (.readingToken e)
  | .ok (.scalar (.string l),dec) => .ok (l,dec)
  | .ok (t,_) => .error (.wantedFieldName t)

def readElements (dec : Decoder) (output : List E) : Except (SerializedError ε) (List E × Decoder) :=
  if dec.More then
    match _ : dec.Decode limit with
    | .error e => .error (.readingElement e)
    | .ok (v,dec) =>
      match element v with
      | .error e => .error (.decodingElement e)
      | .ok tmp => readElements dec (output ++ [tmp])
  else .ok (output,dec)
termination_by dec.rest.length
decreasing_by exact Decode_shorter (by assumption)

def decodeArray (dec : Decoder) (output : List E) : Except (SerializedError ε) (List E × Decoder) :=
  match expectDelimToken dec .openBracket with
  | .error e => .error e
  | .ok dec =>
    match readElements limit element dec output with
    | .error e => .error e
    | .ok (output,dec) =>
      match expectDelimToken dec .closeBracket with
      | .error e => .error e
      | .ok dec => .ok (output,dec)

theorem stringToken_shorter {dec dec' : Decoder} {l : String} (found : stringToken (ε := ε) dec = .ok (l,dec')) :
    dec'.rest.length < dec.rest.length := by
  unfold stringToken at found
  split at found
  next => contradiction
  next => contradiction
  next token =>
    cases Except.ok.inj found
    exact nextToken_shorter token
  next => contradiction

theorem expectDelimToken_shorter {dec dec' : Decoder} {d : Delim} (found : expectDelimToken (ε := ε) dec d = .ok dec') :
    dec'.rest.length < dec.rest.length := by
  unfold expectDelimToken at found
  split at found
  next => contradiction
  next => contradiction
  next token =>
    split at found
    next =>
      cases Except.ok.inj found
      exact nextToken_shorter token
    next => contradiction
  next => contradiction

theorem readElements_iff {dec : Decoder} {output : List E} {result : List E × Decoder} :
    readElements limit element dec output = .ok result ↔
      dec.More = false ∧ result = (output,dec) ∨
        dec.More = true ∧ ∃ v dec' tmp, dec.Decode limit = .ok (v,dec') ∧ element v = .ok tmp ∧
          readElements limit element dec' (output ++ [tmp]) = .ok result := by
  rw [readElements]
  split
  next more =>
    rw [more]
    split
    next failed => simp [failed]
    next v dec' decoded =>
      split
      next failed => simp [decoded,failed]
      next tmp done => simp [decoded,done]
  next less =>
    rw [Bool.not_eq_true] at less
    simp only [less,true_and,Bool.false_eq_true,false_and,or_false,Except.ok.injEq]
    exact eq_comm

theorem readElements_shorter {dec dec' : Decoder} {output output' : List E}
    (found : readElements limit element dec output = .ok (output',dec')) : dec'.rest.length ≤ dec.rest.length := by
  induction size : dec.rest.length using Nat.strongRecOn generalizing dec output with
  | ind n ih =>
    rcases (readElements_iff limit element).mp found with ⟨-,same⟩ | ⟨-,v,next,tmp,decoded,-,later⟩
    · cases same
      exact Nat.le_of_eq size
    · have shorter := Decode_shorter decoded
      have smaller := ih next.rest.length (by omega) later rfl
      omega

theorem decodeArray_iff {dec dec' : Decoder} {output output' : List E} :
    decodeArray limit element dec output = .ok (output',dec') ↔
      ∃ first last, expectDelimToken (ε := ε) dec .openBracket = .ok first ∧
        readElements limit element first output = .ok (output',last) ∧ expectDelimToken (ε := ε) last .closeBracket = .ok dec' := by
  unfold decodeArray
  split
  next failed => simp [failed]
  next first begun =>
    split
    next failed => simp [begun,failed]
    next elements last read =>
      split
      next failed =>
        simp only [reduceCtorEq,false_iff,not_exists,not_and,begun,Except.ok.injEq]
        rintro first' last' rfl same
        rw [read] at same
        cases Except.ok.inj same
        simp [failed]
      next closed ended =>
        simp only [begun,Except.ok.injEq,Prod.mk.injEq]
        constructor
        · rintro ⟨rfl,rfl⟩
          exact ⟨first,last,rfl,read,ended⟩
        · rintro ⟨first',last',rfl,same,closing⟩
          rw [read] at same
          cases Except.ok.inj same
          rw [ended] at closing
          exact ⟨rfl,Except.ok.inj closing⟩

theorem decodeArray_shorter {dec dec' : Decoder} {output output' : List E}
    (found : decodeArray limit element dec output = .ok (output',dec')) : dec'.rest.length < dec.rest.length := by
  obtain ⟨first,last,begun,read,ended⟩ := (decodeArray_iff limit element).mp found
  have end' := expectDelimToken_shorter ended
  have inside := readElements_shorter limit element read
  have start := expectDelimToken_shorter begun
  omega

def parseFields (dec : Decoder) (seen : Bool) (entries : List E) : Except (SerializedError ε) (List E × Decoder) :=
  if dec.More then
    match _ : stringToken dec with
    | .error e => .error e
    | .ok (l,dec) =>
      if !isEntries l then parseFields dec seen entries
      else if seen then .error .repeatedEntries
      else
        match _ : decodeArray limit element dec entries with
        | .error e => .error e
        | .ok (entries,dec) => parseFields dec true entries
  else .ok (entries,dec)
termination_by dec.rest.length
decreasing_by
  · exact stringToken_shorter (by assumption)
  · exact Nat.lt_trans (decodeArray_shorter limit element (by assumption)) (stringToken_shorter (by assumption))

def decodeManifestArray (r : List Lexeme) : Except (SerializedError ε) (List E) :=
  match expectDelimToken (NewDecoder r) .openBrace with
  | .error e => .error e
  | .ok dec =>
    match parseFields limit element dec false [] with
    | .error e => .error e
    | .ok (entries,dec) =>
      match expectDelimToken dec .closeBrace with
      | .error e => .error e
      | .ok _ => .ok entries

theorem parseFields_iff {dec : Decoder} {seen : Bool} {entries : List E} {result : List E × Decoder} :
    parseFields limit element dec seen entries = .ok result ↔
      dec.More = false ∧ result = (entries,dec) ∨
        dec.More = true ∧ ∃ key dec', stringToken (ε := ε) dec = .ok (key,dec') ∧
          (isEntries key = false ∧ parseFields limit element dec' seen entries = .ok result ∨
            isEntries key = true ∧ seen = false ∧ ∃ entries' dec'', decodeArray limit element dec' entries = .ok (entries',dec'') ∧
              parseFields limit element dec'' true entries' = .ok result) := by
  rw [parseFields]
  split
  next more =>
    rw [more]
    split
    next failed => simp [failed]
    next key dec' named =>
      simp only [Bool.true_eq_false,false_and,true_and,false_or,named,Except.ok.injEq,Prod.mk.injEq]
      split
      next other =>
        have unknown : isEntries key = false := by simpa using other
        constructor
        · exact fun later => ⟨key,dec',⟨rfl,rfl⟩,.inl ⟨unknown,later⟩⟩
        · rintro ⟨_,_,⟨rfl,rfl⟩,⟨-,later⟩ | ⟨known,-⟩⟩
          · exact later
          · rw [unknown] at known
            contradiction
      next other =>
        have known : isEntries key = true := by simpa using other
        split
        next again =>
          simp only [reduceCtorEq,false_iff,not_exists,not_and]
          rintro _ _ ⟨rfl,rfl⟩ (⟨unknown,-⟩ | ⟨-,first,-⟩)
          · rw [known] at unknown
            contradiction
          · rw [first] at again
            contradiction
        next first =>
          split
          next failed =>
            simp only [reduceCtorEq,false_iff,not_exists,not_and]
            rintro _ _ ⟨rfl,rfl⟩ (⟨unknown,-⟩ | ⟨-,-,_,_,decoded,-⟩)
            · rw [known] at unknown
              contradiction
            · rw [failed] at decoded
              contradiction
          next entries' dec'' decoded =>
            constructor
            · exact fun later => ⟨key,dec',⟨rfl,rfl⟩,.inr ⟨known,by simpa using first,entries',dec'',decoded,later⟩⟩
            · rintro ⟨_,_,⟨rfl,rfl⟩,⟨unknown,-⟩ | ⟨-,-,_,_,same,later⟩⟩
              · rw [known] at unknown
                contradiction
              · rw [decoded] at same
                cases Except.ok.inj same
                exact later
  next less =>
    rw [Bool.not_eq_true] at less
    simp only [less,true_and,Bool.false_eq_true,false_and,or_false,Except.ok.injEq]
    exact eq_comm

end Functions

section Decoding
variable {E ε : Type} {limit : Nat} {element : Value → Except ε E}

theorem expectDelimToken_ok {dec dec' : Decoder} {d : Delim} :
    expectDelimToken (ε := ε) dec d = .ok dec' ↔ dec.Token = .ok (.delim d,dec') := by
  unfold expectDelimToken
  split
  next failed => simp [failed]
  next failed => simp [failed]
  next got dec token =>
    rw [token]
    split
    next same => simp [same]
    next other => simp [other]
  next t dec notDelim token =>
    rw [token]
    simp only [reduceCtorEq,false_iff,Except.ok.injEq,Prod.mk.injEq,not_and]
    rintro rfl
    exact (notDelim d rfl).elim

theorem stringToken_ok {dec dec' : Decoder} {key : String} :
    stringToken (ε := ε) dec = .ok (key,dec') ↔ dec.Token = .ok (.scalar (.string key),dec') := by
  unfold stringToken
  split
  next failed => simp [failed]
  next failed => simp [failed]
  next got dec token => simp [token]
  next t dec notString token =>
    rw [token]
    simp only [reduceCtorEq,false_iff,Except.ok.injEq,Prod.mk.injEq,not_and]
    rintro rfl
    exact (notString key rfl).elim

/-- The elements up to the end of an array are read and then its end. -/
def ReadsArray (limit : Nat) (element : Value → Except ε E) (dec : Decoder) (output output' : List E) (dec' : Decoder) : Prop :=
  ∃ last, readElements limit element dec output = .ok (output',last) ∧ last.Token = .ok (.delim .closeBracket,dec')

theorem readsArray_afterElement {s : TokenState} {stack : List TokenState} {l : List Lexeme} {output output' : List E} {dec' : Decoder} :
    ReadsArray limit element ⟨l,.arrayComma,s :: stack⟩ output output' dec' ↔
      ∃ vs es, Elements limit l vs dec'.rest ∧ vs.mapM element = .ok es ∧ output' = output ++ es ∧
        dec' = ⟨dec'.rest,tokenValueEnd s,stack⟩ := by
  constructor
  · rintro ⟨last,read,ended⟩
    induction size : l.length using Nat.strongRecOn generalizing l output with
    | ind n ih =>
      rcases (readElements_iff limit element).mp read with ⟨less,same⟩ | ⟨-,v,next,tmp,decoded,done,later⟩
      · cases same
        obtain ⟨rfl,closed⟩ := (nextToken_closeBracket (.inr rfl) less).mp ended
        exact ⟨[],[],.close,rfl,(List.append_nil _).symm,closed⟩
      · obtain ⟨rest,rfl,value,same⟩ := Decode_arrayComma.mp decoded
        have shorter := run_shorter value
        rw [same] at later
        obtain ⟨vs,es,more,mapped,rfl,closed⟩ := ih next.rest.length (by simp at shorter size; omega) later rfl
        refine ⟨v :: vs,tmp :: es,.next value more,?_,by simp,closed⟩
        rw [List.mapM_cons,done,mapped]
        rfl
  · rintro ⟨vs,es,more,mapped,rfl,closed⟩
    rw [closed]
    generalize dec'.rest = final at more
    induction more generalizing output es with
    | close =>
      have none : es = [] := (Except.ok.inj mapped).symm
      subst none
      exact ⟨_,(readElements_iff limit element).mpr (.inl ⟨rfl,by rw [List.append_nil]⟩),rfl⟩
    | next value more ih =>
      rw [List.mapM_cons] at mapped
      obtain ⟨tmp,done,mapped⟩ := bind_ok.mp mapped
      obtain ⟨es',later,same⟩ := bind_ok.mp mapped
      cases Except.ok.inj same
      obtain ⟨last,read,ended⟩ := @ih (output ++ [tmp]) es' later
      refine ⟨last,?_,ended⟩
      rw [List.append_assoc] at read
      exact (readElements_iff limit element).mpr (.inr ⟨rfl,_,_,tmp,Decode_arrayComma.mpr ⟨_,rfl,value,rfl⟩,done,read⟩)

theorem readsArray {s : TokenState} {stack : List TokenState} {l : List Lexeme} {output output' : List E} {dec' : Decoder} :
    ReadsArray limit element ⟨l,.arrayStart,s :: stack⟩ output output' dec' ↔
      ∃ vs es, ArrayText limit l vs dec'.rest ∧ vs.mapM element = .ok es ∧ output' = output ++ es ∧
        dec' = ⟨dec'.rest,tokenValueEnd s,stack⟩ := by
  constructor
  · rintro ⟨last,read,ended⟩
    rcases (readElements_iff limit element).mp read with ⟨less,same⟩ | ⟨more,v,next,tmp,decoded,done,later⟩
    · cases same
      obtain ⟨rfl,closed⟩ := (nextToken_closeBracket (.inl rfl) less).mp ended
      exact ⟨[],[],.inl ⟨rfl,rfl⟩,rfl,(List.append_nil _).symm,closed⟩
    · obtain ⟨value,same⟩ := (Decode_value rfl).mp decoded
      rw [same] at later
      obtain ⟨vs,es,elements,mapped,rfl,closed⟩ := readsArray_afterElement.mp ⟨last,later,ended⟩
      refine ⟨v :: vs,tmp :: es,.inr ⟨?_,_,vs,value,elements,rfl⟩,?_,by simp,closed⟩
      · rintro rest rfl
        contradiction
      · rw [List.mapM_cons,done,mapped]
        rfl
  · rintro ⟨vs,es,⟨rfl,rfl⟩ | ⟨notEnd,value,vs,found,elements,rfl⟩,mapped,rfl,closed⟩
    · have none : es = [] := (Except.ok.inj mapped).symm
      subst none
      refine ⟨_,(readElements_iff limit element).mpr (.inl ⟨rfl,by rw [List.append_nil]⟩),?_⟩
      rw [closed]
      rfl
    · rw [List.mapM_cons] at mapped
      obtain ⟨tmp,done,mapped⟩ := bind_ok.mp mapped
      obtain ⟨es',later,same⟩ := bind_ok.mp mapped
      cases Except.ok.inj same
      obtain ⟨last,read,ended⟩ : ReadsArray limit element ⟨value.2,.arrayComma,s :: stack⟩ (output ++ [tmp]) (output ++ [tmp] ++ es') dec' :=
        readsArray_afterElement.mpr ⟨vs,es',elements,later,rfl,closed⟩
      have more : Decoder.More ⟨l,.arrayStart,s :: stack⟩ = true := by
        rcases readValue_cases found with ⟨x,rfl,-⟩ | ⟨-,⟨rest,rfl⟩ | ⟨rest,rfl⟩⟩
        · rfl
        · rfl
        · rfl
      have decoded : Decoder.Decode limit ⟨l,.arrayStart,s :: stack⟩ = .ok (value.1,⟨value.2,.arrayComma,s :: stack⟩) :=
        (Decode_value rfl).mpr ⟨found,rfl⟩
      refine ⟨last,(readElements_iff limit element).mpr (.inr ⟨more,_,_,tmp,decoded,done,?_⟩),ended⟩
      rw [List.append_assoc] at read
      exact read

/-- After a name of a field, an array is decoded. -/
theorem decodeArray_colon {stack : List TokenState} {l : List Lexeme} {output output' : List E} {dec' : Decoder} :
    decodeArray limit element ⟨l,.objectColon,stack⟩ output = .ok (output',dec') ↔
      ∃ l' vs es, l = .colon :: .openBracket :: l' ∧ ArrayText limit l' vs dec'.rest ∧ vs.mapM element = .ok es ∧
        output' = output ++ es ∧ dec' = ⟨dec'.rest,.objectComma,stack⟩ := by
  rw [decodeArray_iff]
  constructor
  · rintro ⟨first,last,begun,read,ended⟩
    obtain ⟨l',rfl,rfl⟩ := nextToken_colon_openBracket.mp (expectDelimToken_ok.mp begun)
    obtain ⟨vs,es,text,mapped,same,closed⟩ := readsArray.mp ⟨last,read,expectDelimToken_ok.mp ended⟩
    exact ⟨l',vs,es,rfl,text,mapped,same,closed⟩
  · rintro ⟨l',vs,es,rfl,text,mapped,same,closed⟩
    obtain ⟨last,read,ended⟩ : ReadsArray limit element ⟨l',.arrayStart,.objectValue :: stack⟩ output output' dec' :=
      readsArray.mpr ⟨vs,es,text,mapped,same,closed⟩
    exact ⟨_,last,expectDelimToken_ok.mpr (nextToken_colon_openBracket.mpr ⟨l',rfl,rfl⟩),read,expectDelimToken_ok.mpr ended⟩

/-- What the decoder takes of a field, and whether entries have been seen after it: a text that is no name of entries is
passed over, an array of entries is taken once. -/
def tolerated (seen : Bool) (key : String) (v : Value) : Option (Bool × List Value) :=
  if isEntries key then
    match v with
    | .array vs => if seen then none else some (true,vs)
    | _ => none
  else
    match v with
    | .scalar (.string s) => if isEntries s then none else some (seen,[])
    | _ => none

def streamed : Bool → List (String × Value) → Option (List Value)
  | _, [] => some []
  | seen, (key,v) :: fs => (tolerated seen key v).bind fun taken => (streamed taken.1 fs).map (taken.2 ++ ·)

/-- The fields up to the end of an object are read and then its end. -/
def ReadsFields (limit : Nat) (element : Value → Except ε E) (dec : Decoder) (seen : Bool) (entries entries' : List E) (dec' : Decoder) :
    Prop :=
  ∃ last, parseFields limit element dec seen entries = .ok (entries',last) ∧ last.Token = .ok (.delim .closeBrace,dec')

/-- After an unknown name comes a text, which is taken for another name. -/
theorem readsFields_unknown {l : List Lexeme} {seen : Bool} {entries entries' : List E} {dec' : Decoder} :
    ReadsFields limit element ⟨l,.objectColon,[.topValue]⟩ seen entries entries' dec' ↔
      ∃ s l', l = .colon :: .scalar (.string s) :: l' ∧ isEntries s = false ∧
        ReadsFields limit element ⟨l',.objectComma,[.topValue]⟩ seen entries entries' dec' := by
  constructor
  · rintro ⟨last,parsed,ended⟩
    rcases (parseFields_iff limit element).mp parsed with ⟨-,same⟩ | ⟨-,s,next,token,⟨unknown,later⟩ | ⟨-,-,_,_,decoded,-⟩⟩
    · cases same
      exact absurd ended nextToken_colon_closeBrace
    · obtain ⟨l',rfl,rfl⟩ := nextToken_colon_string.mp (stringToken_ok.mp token)
      exact ⟨s,l',rfl,unknown,last,later,ended⟩
    · obtain ⟨l',rfl,rfl⟩ := nextToken_colon_string.mp (stringToken_ok.mp token)
      obtain ⟨first,_,begun,-⟩ := (decodeArray_iff limit element).mp decoded
      exact absurd (expectDelimToken_ok.mp begun) nextToken_comma_openBracket
  · rintro ⟨s,l',rfl,unknown,last,later,ended⟩
    refine ⟨last,(parseFields_iff limit element).mpr (.inr ⟨rfl,s,_,stringToken_ok.mpr ?_,.inl ⟨unknown,later⟩⟩),ended⟩
    exact nextToken_colon_string.mpr ⟨l',rfl,rfl⟩

/-- What follows after the name of a field. -/
def ReadsField (limit : Nat) (element : Value → Except ε E) (key : String) (dec : Decoder) (seen : Bool) (entries entries' : List E)
    (dec' : Decoder) : Prop :=
  isEntries key = false ∧ ReadsFields limit element dec seen entries entries' dec' ∨
    isEntries key = true ∧ seen = false ∧ ∃ es next, decodeArray limit element dec entries = .ok (es,next) ∧
      ReadsFields limit element next true es entries' dec'

theorem readsField_iff {key : String} {l : List Lexeme} {seen : Bool} {entries entries' : List E} {dec' : Decoder} :
    ReadsField limit element key ⟨l,.objectColon,[.topValue]⟩ seen entries entries' dec' ↔
      ∃ l' read taken es, l = .colon :: l' ∧ readValue (limit + 1) l' = some read ∧ tolerated seen key read.1 = some taken ∧
        taken.2.mapM element = .ok es ∧
        ReadsFields limit element ⟨read.2,.objectComma,[.topValue]⟩ taken.1 (entries ++ es) entries' dec' := by
  unfold ReadsField tolerated
  cases known : isEntries key with
  | true =>
    simp only [Bool.true_eq_false,false_and,true_and,false_or,if_true]
    constructor
    · rintro ⟨rfl,es,next,decoded,later⟩
      obtain ⟨l',vs,es',rfl,text,mapped,rfl,same⟩ := decodeArray_colon.mp decoded
      rw [same] at later
      exact ⟨_,(.array vs,next.rest),(true,vs),es',rfl,readValue_array.mpr ⟨vs,text,rfl⟩,rfl,mapped,later⟩
    · rintro ⟨l',⟨v,rest⟩,taken,es,rfl,read,takes,mapped,later⟩
      dsimp only at takes later
      split at takes
      next vs =>
        cases seen with
        | true => contradiction
        | false =>
          cases Option.some.inj takes
          rcases readValue_cases read with ⟨s,-,same⟩ | ⟨-,⟨l'',rfl⟩ | ⟨l'',rfl⟩⟩
          · contradiction
          · obtain ⟨vs',text,same⟩ := readValue_array.mp read
            cases same
            exact ⟨rfl,entries ++ es,⟨rest,.objectComma,[.topValue]⟩,decodeArray_colon.mpr ⟨l'',vs,es,rfl,text,mapped,rfl,rfl⟩,later⟩
          · obtain ⟨fs,-,same⟩ := readValue_object.mp read
            contradiction
      next => contradiction
  | false =>
    simp only [Bool.false_eq_true,false_and,true_and,or_false,if_false]
    rw [readsFields_unknown]
    constructor
    · rintro ⟨s,l',rfl,unknown,later⟩
      refine ⟨_,(.scalar (.string s),l'),(seen,[]),[],rfl,rfl,?_,rfl,by rwa [List.append_nil]⟩
      simp [unknown]
    · rintro ⟨l',⟨v,rest⟩,taken,es,rfl,read,takes,mapped,later⟩
      dsimp only at takes later
      split at takes
      next s =>
        split at takes
        next => contradiction
        next unknown =>
          cases Option.some.inj takes
          have none : es = [] := (Except.ok.inj mapped).symm
          subst none
          rw [List.append_nil] at later
          rcases readValue_cases read with ⟨s',rfl,same⟩ | ⟨-,⟨l'',rfl⟩ | ⟨l'',rfl⟩⟩
          · cases same
            exact ⟨s,rest,rfl,by simpa using unknown,later⟩
          · obtain ⟨vs',-,same⟩ := readValue_array.mp read
            contradiction
          · obtain ⟨fs,-,same⟩ := readValue_object.mp read
            contradiction
      next => contradiction

/-- Either the object ends, or there is another name, with the lexemes before it that the state asks for. -/
theorem readsFields_step {state : TokenState} (inObject : state = .objectStart ∨ state = .objectComma)
    (text : String → List Lexeme → List Lexeme) (begun : ∀ key l, Decoder.More ⟨text key l,state,[.topValue]⟩ = true)
    (named : ∀ key l dec, nextToken state [.topValue] l = .ok (.scalar (.string key),dec) ↔
      ∃ l', l = text key l' ∧ dec = ⟨l',.objectColon,[.topValue]⟩)
    {l : List Lexeme} {seen : Bool} {entries entries' : List E} {dec' : Decoder} :
    ReadsFields limit element ⟨l,state,[.topValue]⟩ seen entries entries' dec' ↔
      l = .closeBrace :: dec'.rest ∧ entries' = entries ∧ dec' = ⟨dec'.rest,.topValue,[]⟩ ∨
        ∃ key l', l = text key l' ∧ ReadsField limit element key ⟨l',.objectColon,[.topValue]⟩ seen entries entries' dec' := by
  constructor
  · rintro ⟨last,parsed,ended⟩
    rcases (parseFields_iff limit element).mp parsed with ⟨less,same⟩ | ⟨-,key,next,token,later⟩
    · cases same
      obtain ⟨rfl,closed⟩ := (nextToken_closeBrace inObject less).mp ended
      exact .inl ⟨rfl,rfl,closed⟩
    · obtain ⟨l',rfl,rfl⟩ := (named key l next).mp (stringToken_ok.mp token)
      refine .inr ⟨key,l',rfl,?_⟩
      rcases later with ⟨unknown,later⟩ | ⟨known,first,es,after,decoded,later⟩
      · exact .inl ⟨unknown,last,later,ended⟩
      · exact .inr ⟨known,first,es,after,decoded,last,later,ended⟩
  · rintro (⟨rfl,rfl,closed⟩ | ⟨key,l',rfl,follows⟩)
    · refine ⟨_,(parseFields_iff limit element).mpr (.inl ⟨rfl,rfl⟩),(nextToken_closeBrace inObject rfl).mpr ⟨rfl,closed⟩⟩
    · have token : stringToken (ε := ε) ⟨text key l',state,[.topValue]⟩ = .ok (key,⟨l',.objectColon,[.topValue]⟩) :=
        stringToken_ok.mpr ((named key (text key l') _).mpr ⟨l',rfl,rfl⟩)
      rcases follows with ⟨unknown,last,later,ended⟩ | ⟨known,first,es,after,decoded,last,later,ended⟩
      · exact ⟨last,(parseFields_iff limit element).mpr (.inr ⟨begun key l',key,_,token,.inl ⟨unknown,later⟩⟩),ended⟩
      · exact ⟨last,(parseFields_iff limit element).mpr
          (.inr ⟨begun key l',key,_,token,.inr ⟨known,first,es,after,decoded,later⟩⟩),ended⟩

theorem mapM_append_ok {vs ws : List Value} {es : List E} :
    (vs ++ ws).mapM element = .ok es ↔ ∃ first second, vs.mapM element = .ok first ∧ ws.mapM element = .ok second ∧ es = first ++ second := by
  rw [List.mapM_append,bind_ok]
  constructor
  · rintro ⟨first,mapped,later⟩
    obtain ⟨second,rest,same⟩ := bind_ok.mp later
    exact ⟨first,second,mapped,rest,(Except.ok.inj same).symm⟩
  · rintro ⟨first,second,mapped,rest,rfl⟩
    exact ⟨first,mapped,bind_ok.mpr ⟨second,rest,rfl⟩⟩

theorem readsFields_comma {l : List Lexeme} {seen : Bool} {entries entries' : List E} {dec' : Decoder} :
    ReadsFields limit element ⟨l,.objectComma,[.topValue]⟩ seen entries entries' dec' ↔
      l = .closeBrace :: dec'.rest ∧ entries' = entries ∧ dec' = ⟨dec'.rest,.topValue,[]⟩ ∨
        ∃ key l', l = .comma :: .scalar (.string key) :: l' ∧
          ReadsField limit element key ⟨l',.objectColon,[.topValue]⟩ seen entries entries' dec' :=
  readsFields_step (.inr rfl) (fun key l => .comma :: .scalar (.string key) :: l) (fun _ _ => rfl) fun _ _ _ => nextToken_comma_key

theorem readsFields_start {l : List Lexeme} {seen : Bool} {entries entries' : List E} {dec' : Decoder} :
    ReadsFields limit element ⟨l,.objectStart,[.topValue]⟩ seen entries entries' dec' ↔
      l = .closeBrace :: dec'.rest ∧ entries' = entries ∧ dec' = ⟨dec'.rest,.topValue,[]⟩ ∨
        ∃ key l', l = .scalar (.string key) :: l' ∧
          ReadsField limit element key ⟨l',.objectColon,[.topValue]⟩ seen entries entries' dec' :=
  readsFields_step (.inl rfl) (fun key l => .scalar (.string key) :: l) (fun _ _ => rfl) fun _ _ _ => nextToken_key

theorem streamed_cons {seen : Bool} {key : String} {v : Value} {fs : List (String × Value)} {vs : List Value} :
    streamed seen ((key,v) :: fs) = some vs ↔
      ∃ taken more, tolerated seen key v = some taken ∧ streamed taken.1 fs = some more ∧ vs = taken.2 ++ more := by
  rw [streamed,Option.bind_eq_some_iff]
  refine exists_congr fun taken => ?_
  rw [Option.map_eq_some_iff]
  constructor
  · rintro ⟨takes,more,rest,rfl⟩
    exact ⟨more,takes,rest,rfl⟩
  · rintro ⟨more,takes,rest,rfl⟩
    exact ⟨takes,more,rest,rfl⟩

theorem readsFields_afterField {l : List Lexeme} {seen : Bool} {entries entries' : List E} {dec' : Decoder} :
    ReadsFields limit element ⟨l,.objectComma,[.topValue]⟩ seen entries entries' dec' ↔
      ∃ fs vs es, Fields (limit + 1) l fs dec'.rest ∧ streamed seen fs = some vs ∧ vs.mapM element = .ok es ∧
        entries' = entries ++ es ∧ dec' = ⟨dec'.rest,.topValue,[]⟩ := by
  constructor
  · intro reads
    induction size : l.length using Nat.strongRecOn generalizing l seen entries with
    | ind n ih =>
      rcases readsFields_comma.mp reads with ⟨rfl,rfl,closed⟩ | ⟨key,l',rfl,follows⟩
      · exact ⟨[],[],[],.close,rfl,rfl,(List.append_nil _).symm,closed⟩
      · obtain ⟨l',read,taken,es,rfl,found,takes,mapped,later⟩ := readsField_iff.mp follows
        have shorter := run_shorter found
        obtain ⟨fs,vs,es',fields,rest,mapped',rfl,closed⟩ := ih read.2.length (by simp at size; omega) later rfl
        exact ⟨(key,read.1) :: fs,taken.2 ++ vs,es ++ es',.next found fields,streamed_cons.mpr ⟨taken,vs,takes,rest,rfl⟩,
          mapM_append_ok.mpr ⟨es,es',mapped,mapped',rfl⟩,List.append_assoc _ _ _,closed⟩
  · rintro ⟨fs,vs,es,fields,streams,mapped,rfl,closed⟩
    rw [closed]
    generalize dec'.rest = final at fields
    induction fields generalizing seen entries vs es with
    | close =>
      cases Option.some.inj streams
      have none : es = [] := (Except.ok.inj mapped).symm
      subst none
      exact readsFields_comma.mpr (.inl ⟨rfl,List.append_nil _,rfl⟩)
    | next found _ ih =>
      obtain ⟨taken,more,takes,rest,rfl⟩ := streamed_cons.mp streams
      obtain ⟨first,second,here,there,rfl⟩ := mapM_append_ok.mp mapped
      have later := @ih taken.1 (entries ++ first) more second rest there
      rw [List.append_assoc] at later
      exact readsFields_comma.mpr (.inr ⟨_,_,rfl,readsField_iff.mpr ⟨_,_,taken,first,rfl,found,takes,here,later⟩⟩)

theorem readsFields_object {l : List Lexeme} {entries' : List E} {dec' : Decoder} :
    ReadsFields limit element ⟨l,.objectStart,[.topValue]⟩ false [] entries' dec' ↔
      ∃ fs vs, ObjectText (limit + 1) l fs dec'.rest ∧ streamed false fs = some vs ∧ vs.mapM element = .ok entries' ∧
        dec' = ⟨dec'.rest,.topValue,[]⟩ := by
  rw [readsFields_start]
  constructor
  · rintro (⟨rfl,rfl,closed⟩ | ⟨key,l',rfl,follows⟩)
    · exact ⟨[],[],.inl ⟨rfl,rfl⟩,rfl,rfl,closed⟩
    · obtain ⟨l',read,taken,es,rfl,found,takes,mapped,later⟩ := readsField_iff.mp follows
      obtain ⟨fs,vs,es',fields,rest,mapped',rfl,closed⟩ := readsFields_afterField.mp later
      exact ⟨_,taken.2 ++ vs,.inr ⟨key,l',read,fs,rfl,found,fields,rfl⟩,streamed_cons.mpr ⟨taken,vs,takes,rest,rfl⟩,
        mapM_append_ok.mpr ⟨es,es',mapped,mapped',rfl⟩,closed⟩
  · rintro ⟨fs,vs,⟨rfl,rfl⟩ | ⟨key,l',read,more,rfl,found,fields,rfl⟩,streams,mapped,closed⟩
    · cases Option.some.inj streams
      exact .inl ⟨rfl,(Except.ok.inj mapped).symm,closed⟩
    · obtain ⟨taken,rest,takes,streams',rfl⟩ := streamed_cons.mp streams
      obtain ⟨es,es',here,there,rfl⟩ := mapM_append_ok.mp mapped
      exact .inr ⟨key,_,rfl,readsField_iff.mpr ⟨l',read,taken,es,rfl,found,takes,here,
        readsFields_afterField.mpr ⟨more,rest,es',fields,streams',there,rfl,closed⟩⟩⟩

/-- What is decoded: objects, nested up to two levels deeper than package json allows, whose other fields are texts. -/
theorem decodeManifestArray_iff {r : List Lexeme} {es : List E} :
    decodeManifestArray limit element r = .ok es ↔
      ∃ fs rest vs, readValue (limit + 2) r = some (.object fs,rest) ∧ streamed false fs = some vs ∧ vs.mapM element = .ok es := by
  have whole : decodeManifestArray limit element r = .ok es ↔ ∃ first dec', expectDelimToken (ε := ε) (NewDecoder r) .openBrace = .ok first ∧
      ReadsFields limit element first false [] es dec' := by
    unfold decodeManifestArray
    split
    next failed => simp [failed]
    next first begun =>
      simp only [begun,Except.ok.injEq,ReadsFields]
      split
      next failed =>
        simp only [reduceCtorEq,false_iff,not_exists,not_and]
        rintro _ _ rfl _ parsed
        rw [failed] at parsed
        contradiction
      next entries last parsed =>
        split
        next failed =>
          simp only [reduceCtorEq,false_iff,not_exists,not_and]
          rintro _ _ rfl _ same closed
          rw [parsed] at same
          cases Except.ok.inj same
          rw [expectDelimToken_ok.mpr closed] at failed
          contradiction
        next closed ended =>
          simp only [Except.ok.injEq]
          constructor
          · rintro rfl
            exact ⟨first,closed,rfl,last,parsed,expectDelimToken_ok.mp ended⟩
          · rintro ⟨_,_,rfl,_,same,-⟩
            rw [parsed] at same
            exact congrArg Prod.fst (Except.ok.inj same)
  rw [whole]
  constructor
  · rintro ⟨first,dec',begun,reads⟩
    obtain ⟨l,rfl,rfl⟩ := nextToken_openBrace.mp (expectDelimToken_ok.mp begun)
    obtain ⟨fs,vs,text,streams,mapped,-⟩ := readsFields_object.mp reads
    exact ⟨fs,dec'.rest,vs,readValue_object.mpr ⟨fs,text,rfl⟩,streams,mapped⟩
  · rintro ⟨fs,rest,vs,read,streams,mapped⟩
    rcases readValue_cases read with ⟨s,-,same⟩ | ⟨-,⟨l,rfl⟩ | ⟨l,rfl⟩⟩
    · contradiction
    · obtain ⟨_,-,same⟩ := readValue_array.mp read
      contradiction
    · obtain ⟨fs',text,same⟩ := readValue_object.mp read
      cases same
      exact ⟨_,⟨rest,.topValue,[]⟩,expectDelimToken_ok.mpr (nextToken_openBrace.mpr ⟨l,rfl,rfl⟩),
        readsFields_object.mpr ⟨fs,vs,text,streams,mapped,rfl⟩⟩

end Decoding

section Standard

inductive StandardError (ε : Type) where
  | syntaxError
  | wrongType
  | element (e : ε)

/-- A document as package json would decode it into the manifest as a whole. -/
structure Package (E ε : Type) where
  limit : Nat
  element : Value → Except ε E
  /-- An array that is decoded over the elements of an earlier one. -/
  onto : List E → List Value → Except ε (List E)

variable {E ε : Type}

namespace Package
variable (json : Package E ε)

/-- Fields with other names are ignored. -/
def unmarshalFields : Option (List E) → List (String × Value) → Except (StandardError ε) (List E)
  | entries, [] => .ok (entries.getD [])
  | entries, (key,v) :: fs =>
    if isEntries key then
      match v with
      | .scalar .null => unmarshalFields none fs
      | .array vs =>
        match entries.elim (vs.mapM json.element) fun old => json.onto old vs with
        | .error e => .error (.element e)
        | .ok es => unmarshalFields (some es) fs
      | _ => .error .wrongType
    else unmarshalFields entries fs

def unmarshal (r : List Lexeme) : Except (StandardError ε) (List E) :=
  match readValue json.limit r with
  | none => .error .syntaxError
  | some (.scalar .null,_) => .ok []
  | some (.object fs,_) => json.unmarshalFields none fs
  | some _ => .error .wrongType

end Package

/-- There is one array of entries, and any fields with other names. -/
def OneArray (fs : List (String × Value)) : Prop := ∃ key vs, (fs.filter fun f => isEntries f.1) = [(key,.array vs)]

/-- The values of fields with other names are texts that are not the name of entries. -/
def OtherTexts (fs : List (String × Value)) : Prop :=
  ∀ f ∈ fs, isEntries f.1 = false → ∃ s, f.2 = .scalar (.string s) ∧ isEntries s = false

structure Agrees (json : Package E ε) (r : List Lexeme) : Prop where
  same : ∀ fs rest es, readValue json.limit r = some (.object fs,rest) → OneArray fs → json.unmarshal r = .ok es →
    decodeManifestArray json.limit json.element r = .ok es
  fails : ∀ e, json.unmarshal r = .error e → ∃ e', decodeManifestArray json.limit json.element r = .error e'

variable {json : Package E ε}

theorem tolerated_text {seen : Bool} {key : String} {v : Value} (other : isEntries key = false) {taken : Bool × List Value} :
    tolerated seen key v = some taken ↔ ∃ s, v = .scalar (.string s) ∧ isEntries s = false ∧ taken = (seen,[]) := by
  unfold tolerated
  rw [other,if_neg Bool.false_ne_true]
  split
  next s =>
    constructor
    · intro takes
      split at takes
      next => contradiction
      next unknown => exact ⟨s,rfl,by simpa using unknown,(Option.some.inj takes).symm⟩
    · rintro ⟨_,same,unknown,rfl⟩
      cases same
      rw [unknown,if_neg Bool.false_ne_true]
  next notText =>
    constructor
    · intro takes
      contradiction
    · rintro ⟨s,same,-⟩
      exact (notText s same).elim

theorem tolerated_array {seen : Bool} {key : String} {v : Value} (known : isEntries key = true) {taken : Bool × List Value} :
    tolerated seen key v = some taken ↔ ∃ vs, v = .array vs ∧ seen = false ∧ taken = (true,vs) := by
  unfold tolerated
  rw [known,if_pos rfl]
  split
  next vs =>
    cases seen with
    | true => simp
    | false =>
      rw [if_neg Bool.false_ne_true]
      constructor
      · exact fun takes => ⟨vs,rfl,rfl,(Option.some.inj takes).symm⟩
      · rintro ⟨_,same,-,rfl⟩
        cases same
        rfl
  next notArray =>
    constructor
    · intro takes
      contradiction
    · rintro ⟨vs,same,-⟩
      exact (notArray vs same).elim

theorem streamed_texts {seen : Bool} {fs : List (String × Value)} {vs : List Value} (streams : streamed seen fs = some vs) : OtherTexts fs := by
  induction fs generalizing seen vs with
  | nil => simp [OtherTexts]
  | cons f fs ih =>
    obtain ⟨key,v⟩ := f
    obtain ⟨taken,more,takes,rest,-⟩ := streamed_cons.mp streams
    intro f member other
    rcases List.mem_cons.mp member with rfl | later
    · obtain ⟨s,text,unknown,-⟩ := (tolerated_text other).mp takes
      exact ⟨s,text,unknown⟩
    · exact ih rest f later other

theorem unmarshalFields_other {key : String} (other : isEntries key = false) (v : Value) (fs : List (String × Value))
    (entries : Option (List E)) : json.unmarshalFields entries ((key,v) :: fs) = json.unmarshalFields entries fs := by
  rw [Package.unmarshalFields.eq_def]
  dsimp only
  rw [other,if_neg Bool.false_ne_true]

theorem unmarshalFields_array {key : String} (known : isEntries key = true) (vs : List Value) (fs : List (String × Value)) {es : List E} :
    json.unmarshalFields none ((key,.array vs) :: fs) = .ok es ↔
      ∃ es', vs.mapM json.element = .ok es' ∧ json.unmarshalFields (some es') fs = .ok es := by
  rw [Package.unmarshalFields.eq_def]
  dsimp only [Option.elim]
  rw [known,if_pos rfl]
  cases vs.mapM json.element with
  | error e => simp
  | ok es' => simp

/-- After entries have been seen, nothing changes them. -/
theorem unmarshal_seen {fs : List (String × Value)} {vs : List Value} (streams : streamed true fs = some vs) (entries : Option (List E)) :
    vs = [] ∧ json.unmarshalFields entries fs = .ok (entries.getD []) := by
  induction fs generalizing vs with
  | nil => exact ⟨(Option.some.inj streams).symm,rfl⟩
  | cons f fs ih =>
    obtain ⟨key,v⟩ := f
    obtain ⟨taken,more,takes,rest,rfl⟩ := streamed_cons.mp streams
    cases known : isEntries key with
    | true =>
      obtain ⟨_,_,again,_⟩ := (tolerated_array known).mp takes
      contradiction
    | false =>
      obtain ⟨s,-,-,rfl⟩ := (tolerated_text known).mp takes
      obtain ⟨rfl,same⟩ := ih rest
      exact ⟨rfl,by rw [unmarshalFields_other known,same]⟩

/-- Of what is streamed the package makes the same elements. -/
theorem unmarshal_streamed {fs : List (String × Value)} {vs : List Value} (streams : streamed false fs = some vs) {es : List E} :
    json.unmarshalFields none fs = .ok es ↔ vs.mapM json.element = .ok es := by
  induction fs generalizing vs with
  | nil =>
    cases Option.some.inj streams
    simp [Package.unmarshalFields,pure,Except.pure]
  | cons f fs ih =>
    obtain ⟨key,v⟩ := f
    obtain ⟨taken,more,takes,rest,rfl⟩ := streamed_cons.mp streams
    cases known : isEntries key with
    | true =>
      obtain ⟨vs,rfl,-,rfl⟩ := (tolerated_array known).mp takes
      have after := fun entries => @unmarshal_seen E ε json fs more rest entries
      rw [unmarshalFields_array known,(after none).1,List.append_nil]
      constructor
      · rintro ⟨es',mapped,later⟩
        rw [(after (some es')).2] at later
        cases Except.ok.inj later
        exact mapped
      · exact fun mapped => ⟨es,mapped,(after (some es)).2⟩
    | false =>
      obtain ⟨s,rfl,-,rfl⟩ := (tolerated_text known).mp takes
      rw [unmarshalFields_other known]
      exact ih rest

theorem streamed_none {seen : Bool} {fs : List (String × Value)} (none : (fs.filter fun f => isEntries f.1) = []) (texts : OtherTexts fs) :
    streamed seen fs = some [] := by
  induction fs with
  | nil => rfl
  | cons f fs ih =>
    obtain ⟨key,v⟩ := f
    have other : isEntries key = false := by
      have outside := List.filter_eq_nil_iff.mp none (key,v) (by simp)
      simpa using outside
    obtain ⟨s,same,unknown⟩ := texts (key,v) (by simp) other
    rw [List.filter_cons_of_neg (by simp [other])] at none
    exact streamed_cons.mpr ⟨(seen,[]),[],(tolerated_text other).mpr ⟨s,same,unknown,rfl⟩,
      ih none fun f member => texts f (by simp [member]),rfl⟩

theorem streamed_one {fs : List (String × Value)} (one : OneArray fs) (texts : OtherTexts fs) : ∃ vs, streamed false fs = some vs := by
  induction fs with
  | nil =>
    obtain ⟨key,vs,empty⟩ := one
    contradiction
  | cons f fs ih =>
    obtain ⟨key,v⟩ := f
    obtain ⟨name,vs,single⟩ := one
    have later : OtherTexts fs := fun f member => texts f (by simp [member])
    cases known : isEntries key with
    | true =>
      rw [List.filter_cons_of_pos (by simpa using known)] at single
      obtain ⟨same,none⟩ := List.cons.inj single
      cases same
      exact ⟨_,streamed_cons.mpr ⟨(true,vs),[],(tolerated_array known).mpr ⟨vs,rfl,rfl,rfl⟩,streamed_none none later,rfl⟩⟩
    | false =>
      obtain ⟨s,same,unknown⟩ := texts (key,v) (by simp) known
      rw [List.filter_cons_of_neg (by simp [known])] at single
      obtain ⟨more,streams⟩ := ih ⟨name,vs,single⟩ later
      exact ⟨_,streamed_cons.mpr ⟨(false,[]),more,(tolerated_text known).mpr ⟨s,same,unknown,rfl⟩,streams,rfl⟩⟩

theorem unmarshal_object {r : List Lexeme} {fs : List (String × Value)} {rest : List Lexeme}
    (read : readValue json.limit r = some (.object fs,rest)) : json.unmarshal r = json.unmarshalFields none fs := by
  rw [Package.unmarshal,read]

/-- Both decoders agree exactly if the values of other fields are texts that are not the name of entries; and what only the nesting
keeps the package from, by at most two levels, must not be decoded otherwise. -/
theorem decodeManifestArray_agrees_iff (json : Package E ε) (r : List Lexeme) :
    Agrees json r ↔
      (∀ fs rest es, readValue json.limit r = some (.object fs,rest) → OneArray fs → json.unmarshal r = .ok es → OtherTexts fs) ∧
      ∀ fs rest vs es, readValue (json.limit + 2) r = some (.object fs,rest) → streamed false fs = some vs →
        vs.mapM json.element = .ok es → readValue json.limit r ≠ none := by
  have deeper {v : Value} {rest : List Lexeme} (read : readValue json.limit r = some (v,rest)) :
      readValue (json.limit + 2) r = some (v,rest) := run_mono (Nat.le_add_right _ 2) read
  constructor
  · intro agrees
    constructor
    · intro fs rest es read one decoded
      obtain ⟨fs',rest',vs,read',streams,-⟩ := decodeManifestArray_iff.mp (agrees.same fs rest es read one decoded)
      rw [deeper read] at read'
      cases Option.some.inj read'
      exact streamed_texts streams
    · intro fs rest vs es read streams mapped none
      have failed : json.unmarshal r = .error .syntaxError := by rw [Package.unmarshal,none]
      obtain ⟨e',wrong⟩ := agrees.fails _ failed
      rw [decodeManifestArray_iff.mpr ⟨fs,rest,vs,read,streams,mapped⟩] at wrong
      contradiction
  · rintro ⟨texts,shallow⟩
    constructor
    · intro fs rest es read one decoded
      obtain ⟨vs,streams⟩ := streamed_one one (texts fs rest es read one decoded)
      rw [unmarshal_object read] at decoded
      exact decodeManifestArray_iff.mpr ⟨fs,rest,vs,deeper read,streams,(unmarshal_streamed streams).mp decoded⟩
    · intro e failed
      cases decoded : decodeManifestArray json.limit json.element r with
      | error e' => exact ⟨e',rfl⟩
      | ok es =>
        obtain ⟨fs,rest,vs,read,streams,mapped⟩ := decodeManifestArray_iff.mp decoded
        obtain ⟨⟨v,rest'⟩,found⟩ := Option.ne_none_iff_exists'.mp (shallow fs rest vs es read streams mapped)
        have same := (deeper found).symm.trans read
        cases Option.some.inj same
        rw [unmarshal_object found,(unmarshal_streamed streams).mpr mapped] at failed
        contradiction

/-- A number in a field that a later version may have. -/
def versioned : List Lexeme :=
  [.openBrace,.scalar (.string "version"),.colon,.scalar (.number "2"),.comma,
    .scalar (.string "entries"),.colon,.openBracket,.closeBracket,.closeBrace]

theorem decodeManifestArray_disagrees : ¬∀ (json : Package Unit Unit) (r : List Lexeme), json.limit = maxNestingDepth → Agrees json r := by
  intro agrees
  have read : readValue maxNestingDepth versioned =
      some (.object [("version",.scalar (.number "2")),("entries",.array [])],[]) := by
    simp [versioned,readValue,run,step,begin,complete,maxNestingDepth]
  have other : isEntries "version" = false := by decide
  have known : isEntries "entries" = true := by decide
  have one : OneArray [("version",.scalar (.number "2")),("entries",.array [])] := ⟨"entries",[],by simp [other,known]⟩
  have unmarshalled : (⟨maxNestingDepth,fun _ => .ok (),fun _ _ => .ok []⟩ : Package Unit Unit).unmarshal versioned = .ok [] := by
    rw [unmarshal_object read,unmarshalFields_other other,unmarshalFields_array known]
    exact ⟨[],rfl,rfl⟩
  have decoded := (agrees _ versioned rfl).same _ _ [] read one unmarshalled
  obtain ⟨fs,rest,vs,found,streams,-⟩ := decodeManifestArray_iff.mp decoded
  have deeper : readValue (maxNestingDepth + 2) versioned = _ := run_mono (Nat.le_add_right _ 2) read
  have same := deeper.symm.trans found
  cases Option.some.inj same
  obtain ⟨s,text,-⟩ := streamed_texts streams _ (List.mem_cons_self) (by decide)
  contradiction

end Standard

end Vbe.Manifests.Serialized
