import Mathlib.Data.List.TakeWhile
import Vbe.Wildcard.Formed
import Vbe.Wildcard.Search

/-! What a pattern means, and what the search for a match finds: a splitting in which stars
take the pieces that the search gives them. -/
namespace Vbe.Wildcard

variable (u : Unicode)

section Splitting

/-- A text splits into pieces that match the tokens. A double star and the separator behind it
may match nothing. -/
def Splits : List Token → List Rune → Prop
  | [],text => text = []
  | token :: tokens,text =>
    match token with
    | .star true =>
      (∃ piece rest, text = piece ++ rest ∧ Splits tokens rest) ∨
        match tokens with
        | .dirSep :: others => Splits others text
        | _ => False
    | .star false => ∃ piece rest, text = piece ++ rest ∧ '/' ∉ piece ∧ Splits tokens rest
    | token => ∃ c rest, text = c :: rest ∧ takes u token c ∧ Splits tokens rest

/-- The tokens up to the next star do not fit what is left of a text that is long enough for them. -/
def Misfits : Bool → List Token → List Rune → Prop
  | _,[],text => text ≠ []
  | start,token :: tokens,text =>
    match token with
    | .star true => False
    | .star false =>
      match tokens with
      | [] => '/' ∈ text
      | .dirSep :: _ =>
        '/' ∉ text ∨ start = true ∧ text.head? = some '/' ∨ Misfits false tokens (text.dropWhile (· ≠ '/'))
      | _ => False
    | token =>
      match text with
      | [] => False
      | c :: text => ¬ takes u token c ∨ Misfits false tokens text

/-- The piece of a single star behind which the search goes on: without a separator, and not empty
at the start of a text where a separator follows. Where another token follows, it is the shortest
one that does not leave a misfit, and may end in a separator behind other runes. -/
def EagerPiece (start : Bool) (tokens : List Token) (piece rest : List Rune) : Prop :=
  match tokens with
  | [] => '/' ∉ piece
  | .dirSep :: _ => '/' ∉ piece ∧ (start = true → piece ≠ [])
  | _ =>
    ('/' ∉ piece ∨ ∃ front, front ≠ [] ∧ '/' ∉ front ∧ piece = front ++ ['/']) ∧
      ∀ front back, piece = front ++ back → back ≠ [] → Misfits u false tokens (back ++ rest)

/-- A text splits with eager pieces. A double star and the separator behind it are left out only
before other tokens. -/
def EagerlySplits : Bool → List Token → List Rune → Prop
  | _,[],text => text = []
  | start,token :: tokens,text =>
    match token with
    | .star true =>
      (∃ piece rest, text = piece ++ rest ∧ EagerlySplits false tokens rest) ∨
        match tokens with
        | .dirSep :: others => others ≠ [] ∧ EagerlySplits true others text
        | _ => False
    | .star false => ∃ piece rest, text = piece ++ rest ∧ EagerPiece u start tokens piece rest ∧ EagerlySplits false tokens rest
    | token => ∃ c rest, text = c :: rest ∧ takes u token c ∧ EagerlySplits false tokens rest

end Splitting

section Formed
variable {u}

theorem takes_slash_only {token : Token} {c : Rune} (only : token = .dirSep ∨ token = .rune '/') (taken : takes u token c = true) :
    c = '/' := by
  rcases only with rfl | rfl
  · simpa [takes] using taken
  · simpa [takes] using taken

end Formed

section Singles
variable {u} {token : Token} (single : isStar token = false) (start : Bool) (tokens : List Token) (text : List Rune)

include single

theorem misfits_single : Misfits u start (token :: tokens) text ↔
    match text with
    | [] => False
    | c :: text => ¬ takes u token c ∨ Misfits u false tokens text := by
  cases token with
  | star => contradiction
  | rune | dirSep | anyChar | seq => rfl

theorem eagerlySplits_single : EagerlySplits u start (token :: tokens) text ↔
    ∃ c rest, text = c :: rest ∧ takes u token c ∧ EagerlySplits u false tokens rest := by
  cases token with
  | star => contradiction
  | rune | dirSep | anyChar | seq => rfl

end Singles

section Loops
variable {follow : List Rune → MatchResult}

/-- A search that runs out of text runs out of every shorter one. -/
def Exhausts (follow : List Rune → MatchResult) : Prop :=
  ∀ text, follow text = .wcAbortAll → ∀ rest, rest <:+ text → follow rest ≠ .wcMatch

theorem searchLoop_missed {doubleStar : Bool} {tch c : Rune} {text : List Rune} (missed : follow (c :: text) = .wcNoMatch)
    (onward : doubleStar = true ∨ tch ≠ '/') : searchLoop follow doubleStar tch (c :: text) = searchLoop follow doubleStar c text := by
  rw [searchLoop,if_neg (not_not_intro missed),if_neg]
  rintro ⟨single,slash⟩
  rcases onward with double | other
  · exact single double
  · exact other slash

theorem searchLoop_single_found {tch c : Rune} {text : List Rune} (found : follow (c :: text) ≠ .wcNoMatch) :
    searchLoop follow false tch (c :: text) = follow (c :: text) := by
  rw [searchLoop,if_pos found,if_pos (.inl Bool.false_ne_true)]

theorem searchLoop_ne_noMatch (doubleStar : Bool) (tch : Rune) (text : List Rune) :
    searchLoop follow doubleStar tch text ≠ .wcNoMatch := by
  induction text generalizing tch with
  | nil => simp [searchLoop]
  | cons c text ih =>
    rw [searchLoop]
    split
    next found =>
      split
      next => exact found
      next => exact ih c
    next =>
      split
      next => simp
      next => exact ih c

theorem searchLoop_exhausts (exhausts : Exhausts follow) (doubleStar : Bool) (tch : Rune) {text : List Rune}
    (aborted : searchLoop follow doubleStar tch text = .wcAbortAll) {rest : List Rune} (suffix : rest <:+ text) (some : rest ≠ []) :
    follow rest ≠ .wcMatch := by
  induction text generalizing tch with
  | nil => exact absurd (List.suffix_nil.mp suffix) some
  | cons c text ih =>
    rw [searchLoop] at aborted
    rcases List.suffix_cons_iff.mp suffix with rfl | later
    · split at aborted
      next found =>
        split at aborted
        next => rw [aborted]; simp
        next abort => simp at abort; rw [abort.2]; simp
      next missed => simp at missed; rw [missed]; simp
    · split at aborted
      next =>
        split at aborted
        next => exact exhausts _ aborted rest (later.trans (List.suffix_cons c text))
        next => exact ih c aborted later
      next =>
        split at aborted
        next => simp at aborted
        next => exact ih c aborted later

/-- The loop of a double star finds a match wherever there is one. -/
theorem searchLoop_double (exhausts : Exhausts follow) (tch : Rune) (text : List Rune) :
    searchLoop follow true tch text = .wcMatch ↔ ∃ rest, rest <:+ text ∧ rest ≠ [] ∧ follow rest = .wcMatch := by
  induction text generalizing tch with
  | nil =>
    simp only [searchLoop,List.suffix_nil]
    constructor
    · intro absent
      contradiction
    · rintro ⟨rest,rfl,some,_⟩
      exact absurd rfl some
  | cons c text ih =>
    constructor
    · intro found
      rw [searchLoop] at found
      have onward (later : searchLoop follow true c text = .wcMatch) := (ih c).mp later
      have extend : (∃ rest, rest <:+ text ∧ rest ≠ [] ∧ follow rest = .wcMatch) →
          ∃ rest, rest <:+ c :: text ∧ rest ≠ [] ∧ follow rest = .wcMatch := by
        rintro ⟨rest,suffix,some,matched⟩
        exact ⟨rest,suffix.trans (List.suffix_cons c text),some,matched⟩
      split at found
      next =>
        split at found
        next => exact ⟨c :: text,List.suffix_refl _,by simp,found⟩
        next => exact extend (onward found)
      next =>
        split at found
        next => contradiction
        next => exact extend (onward found)
    · rintro ⟨rest,suffix,some,matched⟩
      rw [searchLoop]
      rcases List.suffix_cons_iff.mp suffix with rfl | later
      · simp [matched]
      · have further := (ih c).mpr ⟨rest,later,some,matched⟩
        split
        next =>
          split
          next stopped =>
            simp at stopped
            cases outcome : follow (c :: text) with
            | wcMatch => rfl
            | wcNoMatch => contradiction
            | wcAbortAll => exact absurd matched (exhausts _ outcome rest suffix)
            | wcAbortToDoubleStar => exact absurd outcome stopped
          next => exact further
        next => simpa using further

/-- Behind a separator the loop of a single star looks at one place only. -/
theorem searchLoop_single_slash (text : List Rune) :
    searchLoop follow false '/' text = .wcMatch ↔ text ≠ [] ∧ follow text = .wcMatch := by
  cases text with
  | nil => simp [searchLoop]
  | cons c text =>
    rw [searchLoop]
    by_cases missed : follow (c :: text) = .wcNoMatch
    · simp [missed]
    · simp [missed]

theorem searchLoop_single {tch : Rune} (other : tch ≠ '/') (text : List Rune) :
    searchLoop follow false tch text = .wcMatch ↔
      ∃ piece rest, text = piece ++ rest ∧ rest ≠ [] ∧ ('/' ∉ piece ∨ ∃ front, '/' ∉ front ∧ piece = front ++ ['/']) ∧
        (∀ front back, piece = front ++ back → back ≠ [] → follow (back ++ rest) = .wcNoMatch) ∧ follow rest = .wcMatch := by
  induction text generalizing tch with
  | nil =>
    simp only [searchLoop]
    constructor
    · intro absent
      contradiction
    · rintro ⟨piece,rest,whole,some,_⟩
      simp at whole
      exact absurd whole.2 some
  | cons c text ih =>
    by_cases missed : follow (c :: text) = .wcNoMatch
    · rw [searchLoop_missed missed (.inr other)]
      constructor
      · intro found
        by_cases slash : c = '/'
        · subst slash
          obtain ⟨some,matched⟩ := (searchLoop_single_slash text).mp found
          refine ⟨['/'],text,rfl,some,Or.inr ⟨[],by simp,rfl⟩,?_,matched⟩
          intro front back split more
          cases front with
          | nil =>
            rw [List.nil_append] at split
            rw [← split]
            exact missed
          | cons _ front =>
            have empty : back = [] := by simp at split; exact split.2.2
            exact absurd empty more
        · obtain ⟨piece,rest,rfl,some,shape,shorter,matched⟩ := (ih slash).mp found
          refine ⟨c :: piece,rest,rfl,some,?_,?_,matched⟩
          · have apart : '/' ≠ c := fun h => slash h.symm
            rcases shape with free | ⟨front,free,rfl⟩
            · exact .inl (by simp [apart,free])
            · exact .inr ⟨c :: front,by simp [apart,free],rfl⟩
          · intro front back split more
            cases front with
            | nil =>
              rw [List.nil_append] at split
              rw [← split]
              exact missed
            | cons _ front =>
              rw [List.cons_append,List.cons.injEq] at split
              exact shorter front back split.2 more
      · rintro ⟨piece,rest,whole,some,shape,shorter,matched⟩
        cases piece with
        | nil =>
          rw [List.nil_append] at whole
          rw [whole,matched] at missed
          contradiction
        | cons d piece =>
          rw [List.cons_append,List.cons.injEq] at whole
          obtain ⟨rfl,rfl⟩ := whole
          by_cases slash : c = '/'
          · subst slash
            have last : piece = [] := by
              rcases shape with free | ⟨front,free,whole⟩
              · simp at free
              · cases front with
                | nil => simpa using whole
                | cons _ front => simp at whole; rw [← whole.1] at free; simp at free
            rw [last,List.nil_append]
            exact (searchLoop_single_slash rest).mpr ⟨some,matched⟩
          · refine (ih slash).mpr ⟨piece,rest,rfl,some,?_,?_,matched⟩
            · rcases shape with free | ⟨front,free,whole⟩
              · exact .inl fun member => free (List.mem_cons_of_mem _ member)
              · cases front with
                | nil => simp at whole; exact absurd whole.1 slash
                | cons _ front =>
                  rw [List.cons_append,List.cons.injEq] at whole
                  exact .inr ⟨front,fun member => free (List.mem_cons_of_mem _ member),whole.2⟩
            · intro front back split more
              exact shorter (c :: front) back (by rw [split]; rfl) more
    · rw [searchLoop_single_found missed]
      constructor
      · intro matched
        exact ⟨[],c :: text,rfl,by simp,.inl (by simp),fun front back split more =>
          absurd (List.append_eq_nil_iff.mp split.symm).2 more,matched⟩
      · rintro ⟨piece,rest,whole,some,_,shorter,matched⟩
        cases piece with
        | nil =>
          rw [List.nil_append] at whole
          rw [whole]
          exact matched
        | cons d piece =>
          have first := shorter [] (d :: piece) rfl (by simp)
          rw [← whole] at first
          exact absurd first missed

end Loops

section Stars
variable {u} (start : Bool) {next : Token} (others : List Token) (text : List Rune)

theorem search_star_slash : search u start (.star false :: .dirSep :: others) text =
    if '/' ∉ text ∨ start = true ∧ text.head? = some '/' then .wcNoMatch
    else search u false (.dirSep :: others) (text.dropWhile (· ≠ '/')) := by
  rw [search_star]
  simp [isDirSep]

theorem search_star_other (other : isDirSep next = false) : search u start (.star false :: next :: others) text =
    searchLoop (search u true (next :: others)) false (text.headD NUL) text := by
  rw [search_star]
  simp [other]

theorem search_doubleStar : search u start (.star true :: next :: others) text =
    if others ≠ [] ∧ isDirSep next = true ∧ search u true others text = .wcMatch then .wcMatch
    else searchLoop (search u true (next :: others)) true (text.headD NUL) text := by
  rw [search_star]
  by_cases skipped : others ≠ [] ∧ isDirSep next = true
  · simp [skipped]
  · simp [skipped]
    intro some slash
    exact absurd ⟨some,slash⟩ skipped

theorem misfits_star_other (other : isDirSep next = false) : ¬ Misfits u start (.star false :: next :: others) text := by
  cases next with
  | dirSep => contradiction
  | rune | star | anyChar | seq => exact not_false

theorem eagerPiece_other (other : isDirSep next = false) (piece rest : List Rune) :
    EagerPiece u start (next :: others) piece rest ↔
      ('/' ∉ piece ∨ ∃ front, front ≠ [] ∧ '/' ∉ front ∧ piece = front ++ ['/']) ∧
        ∀ front back, piece = front ++ back → back ≠ [] → Misfits u false (next :: others) (back ++ rest) := by
  cases next with
  | dirSep => contradiction
  | rune | star | anyChar | seq => rfl

theorem eagerlySplits_doubleStar : EagerlySplits u start (.star true :: next :: others) text ↔
    (∃ piece rest, text = piece ++ rest ∧ EagerlySplits u false (next :: others) rest) ∨
      isDirSep next = true ∧ others ≠ [] ∧ EagerlySplits u true others text := by
  cases next with
  | dirSep => simp [EagerlySplits,isDirSep]
  | rune | star | anyChar | seq => simp [EagerlySplits,isDirSep]

theorem dropWhile_slash {piece rest : List Rune} (free : '/' ∉ piece) :
    (piece ++ '/' :: rest).dropWhile (· ≠ '/') = '/' :: rest := by
  induction piece with
  | nil => simp
  | cons c piece ih =>
    have apart : c ≠ '/' := fun same => free (same ▸ List.mem_cons_self)
    rw [List.cons_append,List.dropWhile_cons_of_pos (by simpa using apart),ih fun member => free (List.mem_cons_of_mem _ member)]

theorem suffix_dropWhile_slash (front rest : List Rune) : '/' :: rest <:+ (front ++ '/' :: rest).dropWhile (· ≠ '/') := by
  induction front with
  | nil => simp
  | cons c front ih =>
    by_cases slash : c = '/'
    · rw [List.cons_append,List.dropWhile_cons_of_neg (by simpa using slash)]
      exact List.suffix_append (c :: front) _
    · rw [List.cons_append,List.dropWhile_cons_of_pos (by simpa using slash)]
      exact ih

end Stars

section Search
variable {u}

theorem search_noMatch_iff (start : Bool) (tokens : List Token) (text : List Rune) :
    search u start tokens text = .wcNoMatch ↔ Misfits u start tokens text := by
  induction tokens generalizing start text with
  | nil =>
    rw [search,Misfits]
    split
    next empty => simp [empty]
    next more => simp [more]
  | cons token tokens ih =>
    cases kind : isStar token with
    | false =>
      rw [search_single kind,misfits_single kind]
      cases text with
      | nil => simp
      | cons c text =>
        by_cases taken : takes u token c = true
        · simp [taken,ih]
        · simp [taken]
    | true =>
      obtain ⟨doubleStar,rfl⟩ : ∃ doubleStar, token = .star doubleStar := by
        cases token with
        | star doubleStar => exact ⟨doubleStar,rfl⟩
        | rune | dirSep | anyChar | seq => contradiction
      cases tokens with
      | nil =>
        cases doubleStar with
        | true => simp [search,Misfits]
        | false =>
          by_cases slash : '/' ∈ text
          · simp [search,Misfits,slash]
          · simp [search,Misfits,slash]
      | cons next others =>
        cases doubleStar with
        | true =>
          have no : ¬ Misfits u start (.star true :: next :: others) text := not_false
          rw [search_doubleStar,iff_false_intro no,iff_false]
          split
          next => simp
          next => exact searchLoop_ne_noMatch _ _ _
        | false =>
          cases jump : isDirSep next with
          | true =>
            obtain rfl : next = .dirSep := by
              cases next with
              | dirSep => rfl
              | rune | star | anyChar | seq => contradiction
            rw [search_star_slash,Misfits]
            by_cases stuck : '/' ∉ text ∨ start = true ∧ text.head? = some '/'
            · rw [if_pos stuck]
              rcases stuck with absent | first
              · simp [absent]
              · simp [first]
            · rw [if_neg stuck,ih]
              obtain ⟨present,moving⟩ := not_or.mp stuck
              simp only [present,moving,false_or]
          | false =>
            rw [search_star_other start others text jump,iff_false_intro (misfits_star_other start others text jump),iff_false]
            exact searchLoop_ne_noMatch _ _ _

/-- What the search finds is an eager splitting, and where it runs out of text there is none of any
shorter one. A double star stands behind a separator. -/
structure Sound (u : Unicode) (tokens : List Token) : Prop where
  found : ∀ start text, search u start tokens text = .wcMatch ↔ EagerlySplits u start tokens text
  ended : ∀ text, search u false tokens text = .wcAbortAll → ∀ front rest, text = front ++ rest →
    (tokens.head? = some (.star true) → front = [] ∨ front.getLast? = some '/') → ¬ EagerlySplits u false tokens rest

theorem Sound.nil : Sound u [] := by
  constructor
  · intro start text
    rw [search,EagerlySplits]
    split
    next empty => simp [empty]
    next more => simp [more]
  · intro text aborted
    rw [search] at aborted
    split at aborted
    next => contradiction
    next => contradiction

theorem Sound.single {token : Token} (kind : isStar token = false) {tokens : List Token}
    (behind : tokens.head? = some (.star true) → token = .dirSep ∨ token = .rune '/') (sound : Sound u tokens) :
    Sound u (token :: tokens) := by
  constructor
  · intro start text
    rw [search_single kind,eagerlySplits_single kind]
    cases text with
    | nil => simp
    | cons c text =>
      by_cases taken : takes u token c = true
      · simp [taken,sound.found]
      · simp [taken]
  · intro text aborted front rest whole _ splits
    obtain ⟨d,rest,rfl,taken,splits⟩ := (eagerlySplits_single kind ..).mp splits
    rw [search_single kind] at aborted
    cases text with
    | nil => simp at whole
    | cons c text =>
      have first : takes u token c = true := by
        by_contra refused
        simp [refused] at aborted
      simp only [first] at aborted
      cases front with
      | nil =>
        rw [List.nil_append,List.cons.injEq] at whole
        exact sound.ended text aborted [] rest whole.2 (fun _ => .inl rfl) splits
      | cons _ front =>
        rw [List.cons_append,List.cons.injEq] at whole
        refine sound.ended text aborted (front ++ [d]) rest (by rw [whole.2]; simp) ?_ splits
        intro double
        right
        rw [List.getLast?_append,takes_slash_only (behind double) taken]
        rfl

theorem eagerlySplits_of_start {tokens : List Token} {text : List Rune} (splits : EagerlySplits u true tokens text) :
    EagerlySplits u false tokens text := by
  cases tokens with
  | nil => exact splits
  | cons token tokens =>
    cases token with
    | rune | dirSep | anyChar | seq => exact splits
    | star doubleStar =>
      cases doubleStar with
      | true =>
        cases tokens with
        | nil => exact splits
        | cons next others => rwa [eagerlySplits_doubleStar] at splits ⊢
      | false =>
        obtain ⟨piece,rest,whole,eager,splits⟩ := splits
        refine ⟨piece,rest,whole,?_,splits⟩
        cases tokens with
        | nil => exact eager
        | cons next others =>
          cases next with
          | dirSep => exact ⟨eager.1,fun start => absurd start Bool.false_ne_true⟩
          | rune | star | anyChar | seq => exact eager

theorem Sound.star_last (doubleStar : Bool) : Sound u [.star doubleStar] := by
  constructor
  · intro start text
    cases doubleStar with
    | true =>
      have all : EagerlySplits u start [.star true] text := .inl ⟨text,[],by simp,rfl⟩
      simp [search,all]
    | false =>
      by_cases slash : '/' ∈ text
      · simp [search,EagerlySplits,EagerPiece,slash]
      · simp [search,EagerlySplits,EagerPiece,slash]
  · intro text aborted
    rw [search] at aborted
    split at aborted
    next => contradiction
    next => contradiction

/-- The search behind a token other than a star, from where a loop calls it. -/
theorem Sound.loops {next : Token} {others : List Token} (kind : isStar next = false) (sound : Sound u (next :: others)) :
    Exhausts (search u true (next :: others)) ∧
      ∀ text, search u true (next :: others) text = .wcMatch ↔ EagerlySplits u false (next :: others) text := by
  have found (text : List Rune) : search u true (next :: others) text = .wcMatch ↔ EagerlySplits u false (next :: others) text := by
    rw [sound.found,eagerlySplits_single kind,eagerlySplits_single kind]
  refine ⟨?_,found⟩
  rintro text aborted rest ⟨front,rfl⟩ matched
  rw [search_single kind] at aborted
  have aborted' : search u false (next :: others) (front ++ rest) = .wcAbortAll := by rw [search_single kind,aborted]
  refine sound.ended _ aborted' front rest rfl ?_ ((found rest).mp matched)
  intro star
  simp at star
  simp [star,isStar] at kind

theorem eagerlySplits_nonempty {next : Token} {others : List Token} (kind : isStar next = false) {start : Bool} {text : List Rune}
    (splits : EagerlySplits u start (next :: others) text) : text ≠ [] := by
  obtain ⟨c,rest,rfl,_⟩ := (eagerlySplits_single kind ..).mp splits
  simp

theorem Sound.star_other {next : Token} {others : List Token} (kind : isStar next = false) (other : isDirSep next = false)
    (sound : Sound u (next :: others)) : Sound u (.star false :: next :: others) := by
  obtain ⟨exhausts,found⟩ := sound.loops kind
  have missed (text : List Rune) : search u true (next :: others) text = .wcNoMatch ↔ Misfits u false (next :: others) text := by
    rw [search_noMatch_iff,misfits_single kind,misfits_single kind]
  constructor
  · intro start text
    rw [search_star_other start others text other,EagerlySplits]
    simp only [eagerPiece_other start others other]
    cases text with
    | nil =>
      simp only [searchLoop]
      constructor
      · intro absent
        contradiction
      · rintro ⟨piece,rest,whole,_,splits⟩
        have empty := (List.append_eq_nil_iff.mp whole.symm).2
        exact absurd empty (eagerlySplits_nonempty kind splits)
    | cons c text =>
      rw [List.headD_cons]
      by_cases slash : c = '/'
      · subst slash
        rw [searchLoop_single_slash,found]
        constructor
        · rintro ⟨_,splits⟩
          refine ⟨[],'/' :: text,rfl,⟨.inl (by simp),?_⟩,splits⟩
          intro front back empty more
          exact absurd (List.append_eq_nil_iff.mp empty.symm).2 more
        · rintro ⟨piece,rest,whole,⟨shape,_⟩,splits⟩
          refine ⟨by simp,?_⟩
          cases piece with
          | nil =>
            rw [whole]
            exact splits
          | cons d piece =>
            rw [List.cons_append,List.cons.injEq] at whole
            rcases shape with free | ⟨front,some,free,split⟩
            · exact absurd (whole.1 ▸ List.mem_cons_self) free
            · cases front with
              | nil => contradiction
              | cons e front =>
                rw [List.cons_append,List.cons.injEq] at split
                exact absurd (whole.1.trans split.1 ▸ List.mem_cons_self) free
      · rw [searchLoop_single slash]
        constructor
        · rintro ⟨piece,rest,whole,_,shape,shorter,matched⟩
          refine ⟨piece,rest,whole,⟨?_,fun front back split more => (missed _).mp (shorter front back split more)⟩,(found rest).mp matched⟩
          rcases shape with free | ⟨front,free,split⟩
          · exact .inl free
          · refine .inr ⟨front,?_,free,split⟩
            rintro rfl
            rw [split,List.nil_append,List.singleton_append,List.cons.injEq] at whole
            exact slash whole.1
        · rintro ⟨piece,rest,whole,⟨shape,shorter⟩,splits⟩
          refine ⟨piece,rest,whole,eagerlySplits_nonempty kind splits,?_,
            fun front back split more => (missed _).mpr (shorter front back split more),(found rest).mpr splits⟩
          rcases shape with free | ⟨front,_,free,split⟩
          · exact .inl free
          · exact .inr ⟨front,free,split⟩
  · intro text aborted front rest whole _ splits
    obtain ⟨piece,rest,rfl,_,splits⟩ := splits
    rw [search_star_other false others text other] at aborted
    have suffix : rest <:+ text := ⟨front ++ piece,by rw [whole,List.append_assoc]⟩
    exact searchLoop_exhausts exhausts false _ aborted suffix (eagerlySplits_nonempty kind splits) ((found rest).mpr splits)

theorem Sound.star_slash {others : List Token} (sound : Sound u (.dirSep :: others)) : Sound u (.star false :: .dirSep :: others) := by
  have slashed {start : Bool} {text : List Rune} (splits : EagerlySplits u start (.dirSep :: others) text) :
      ∃ rest, text = '/' :: rest := by
    obtain ⟨c,rest,whole,taken,_⟩ := (eagerlySplits_single rfl ..).mp splits
    exact ⟨rest,by rw [whole,takes_slash_only (.inl rfl) taken]⟩
  constructor
  · intro start text
    rw [search_star_slash]
    constructor
    · intro matched
      split at matched
      next => contradiction
      next moving =>
        obtain ⟨present,ahead⟩ := not_or.mp moving
        have split := List.takeWhile_append_dropWhile (p := fun c : Rune => decide (c ≠ '/')) (l := text)
        refine ⟨text.takeWhile (· ≠ '/'),text.dropWhile (· ≠ '/'),split.symm,⟨?_,?_⟩,(sound.found ..).mp matched⟩
        · intro member
          have proper := List.mem_takeWhile_imp member
          simp at proper
        · intro begun empty
          apply ahead
          refine ⟨begun,?_⟩
          rw [empty,List.nil_append] at split
          obtain ⟨rest,head⟩ := slashed ((sound.found ..).mp matched)
          rw [← split,head]
          rfl
    · rintro ⟨piece,rest,rfl,⟨free,begun⟩,splits⟩
      obtain ⟨rest,rfl⟩ := slashed splits
      rw [dropWhile_slash free,if_neg,sound.found]
      · exact splits
      · rintro (absent | ⟨start,head⟩)
        · simp at absent
        · cases piece with
          | nil => exact begun start rfl
          | cons c piece =>
            simp at head
            exact free (head ▸ List.mem_cons_self)
  · intro text aborted front rest whole _ splits
    obtain ⟨piece,rest,rfl,⟨free,_⟩,splits⟩ := splits
    obtain ⟨rest,rfl⟩ := slashed splits
    rw [search_star_slash] at aborted
    split at aborted
    next => contradiction
    next =>
      have place : text = (front ++ piece) ++ '/' :: rest := by rw [whole,List.append_assoc]
      obtain ⟨between,suffix⟩ := suffix_dropWhile_slash (front ++ piece) rest
      rw [← place] at suffix
      exact sound.ended _ aborted between ('/' :: rest) suffix.symm (fun double => absurd double (by simp)) splits

theorem Sound.doubleStar {next : Token} {others : List Token} (kind : isStar next = false) (sound : Sound u (next :: others))
    (sound' : Sound u others) : Sound u (.star true :: next :: others) := by
  obtain ⟨exhausts,found⟩ := sound.loops kind
  constructor
  · intro start text
    rw [search_doubleStar,eagerlySplits_doubleStar]
    constructor
    · intro matched
      split at matched
      next skipped => exact .inr ⟨skipped.2.1,skipped.1,(sound'.found ..).mp skipped.2.2⟩
      next =>
        obtain ⟨rest,⟨piece,whole⟩,_,matched⟩ := (searchLoop_double exhausts _ text).mp matched
        exact .inl ⟨piece,rest,whole.symm,(found rest).mp matched⟩
    · rintro (⟨piece,rest,whole,splits⟩ | ⟨slash,more,splits⟩)
      · have looped := (searchLoop_double exhausts (text.headD NUL) text).mpr
          ⟨rest,⟨piece,whole.symm⟩,eagerlySplits_nonempty kind splits,(found rest).mpr splits⟩
        rw [looped]
        exact ite_self _
      · rw [if_pos ⟨more,slash,(sound'.found ..).mpr splits⟩]
  · intro text aborted front rest whole behind splits
    rw [search_doubleStar] at aborted
    split at aborted
    next => contradiction
    next unskipped =>
      have none {rest : List Rune} (suffix : rest <:+ text) : ¬ EagerlySplits u false (next :: others) rest := fun splits =>
        searchLoop_exhausts exhausts true _ aborted suffix (eagerlySplits_nonempty kind splits) ((found rest).mpr splits)
      rcases (eagerlySplits_doubleStar ..).mp splits with ⟨piece,rest,rfl,split⟩ | ⟨slash,more,split⟩
      · exact none ⟨front ++ piece,by rw [whole,List.append_assoc]⟩ split
      · rcases behind rfl with rfl | last
        · rw [List.nil_append] at whole
          exact unskipped ⟨more,slash,(sound'.found ..).mpr (whole ▸ split)⟩
        · obtain ⟨before,rfl⟩ := List.getLast?_eq_some_iff.mp last
          have suffix : '/' :: rest <:+ text := ⟨before,by rw [whole,List.append_assoc]; rfl⟩
          cases next with
          | dirSep => exact none suffix ⟨'/',rest,rfl,by simp [takes],eagerlySplits_of_start split⟩
          | rune | star | anyChar | seq => contradiction

theorem sound_of_formed (tokens : List Token) (formed : Formed tokens) : Sound u tokens := by
  induction size : tokens.length using Nat.strong_induction_on generalizing tokens with
  | _ n ih =>
    cases tokens with
    | nil => exact .nil
    | cons token tokens =>
      have tail : Formed tokens := List.IsChain.tail formed
      have sound := ih tokens.length (by rw [← size]; simp) tokens tail rfl
      cases kind : isStar token with
      | false =>
        refine .single kind ?_ sound
        intro double
        cases tokens with
        | nil => simp at double
        | cons next others =>
          rw [List.head?_cons,Option.some.injEq] at double
          exact (List.isChain_cons_cons.mp formed).1.2 double
      | true =>
        obtain ⟨doubleStar,rfl⟩ : ∃ doubleStar, token = .star doubleStar := by
          cases token with
          | star doubleStar => exact ⟨doubleStar,rfl⟩
          | rune | dirSep | anyChar | seq => contradiction
        cases tokens with
        | nil => exact .star_last doubleStar
        | cons next others =>
          have single := (List.isChain_cons_cons.mp formed).1.1 rfl
          cases doubleStar with
          | true => exact .doubleStar single sound (ih others.length (by rw [← size,List.length_cons,List.length_cons]; omega) others tail.tail rfl)
          | false =>
            cases jump : isDirSep next with
            | true =>
              cases next with
              | dirSep => exact .star_slash sound
              | rune | star | anyChar | seq => contradiction
            | false => exact .star_other single jump sound

end Search

section Patterns
variable {u} {pattern text : List Rune} {options : Options} {matcher : WildcardMatcher} {ignoreCase : Bool}

/-- On a text without NUL a match of a pattern returns, and finds an eager splitting. -/
theorem doMatch_iff_eager (created : NewWildcardMatcher u pattern options = .ok matcher) (clean : NUL ∉ text) :
    doMatch u matcher.tokens text ignoreCase = some .wcMatch ↔
      EagerlySplits u true matcher.tokens (text.map (fold u ignoreCase)) := by
  have searched : matchFrom u matcher.tokens ⟨(0 : Nat),text,ignoreCase⟩ = _ := matchFrom_eq matcher.tokens clean (Nat.zero_le _)
  have start : left u text ignoreCase 0 = text.map (fold u ignoreCase) := by rw [left,List.drop_zero]
  rw [start] at searched
  rw [← (sound_of_formed matcher.tokens (NewWildcardMatcher_formed created)).found]
  change matchFrom u matcher.tokens ⟨(0 : Nat),text,ignoreCase⟩ = _ ↔ _
  rw [searched,Option.some.injEq]
  rfl

def between (first last c : Rune) : Bool := first.toNat ≤ c.toNat && c.toNat ≤ last.toNat

def upperCase : List Rune := "ABCDEFGHIJKLMNOPQRSTUVWXYZ".toList
def lowerCase : List Rune := "abcdefghijklmnopqrstuvwxyz".toList

/-- The tables of ASCII. -/
def ASCII : Unicode where
  IsSpace c := c ∈ [' ','\t','\n','\r',Char.ofNat 11,Char.ofNat 12]
  IsLetter c := c ∈ upperCase ++ lowerCase
  IsDigit := between '0' '9'
  IsSpaceSeparator c := c = ' '
  IsControl c := c.toNat < 32 || c.toNat = 127
  IsGraphic := between ' ' '~'
  IsLower c := c ∈ lowerCase
  IsPrint := between ' ' '~'
  IsPunct c := c ∈ "!\"#%&'()*,-./:;?@[\\]_\x7b\x7d".toList
  IsSymbol c := c ∈ "$+<=>^`|~".toList
  IsUpper c := c ∈ upperCase
  ToLower c := (upperCase.zip lowerCase).lookup c |>.getD c
  lower_slash c isUpper := by
    have all : (upperCase.all fun c => c ≠ '/' ∧ ((upperCase.zip lowerCase).lookup c).getD c ≠ '/') = true := by
      decide +kernel
    exact of_decide_eq_true (List.all_eq_true.mp all c (of_decide_eq_true isUpper))
  lower_nul c isUpper := by
    have all : (upperCase.all fun c => c ≠ NUL ∧ ((upperCase.zip lowerCase).lookup c).getD c ≠ NUL) = true := by
      decide +kernel
    exact of_decide_eq_true (List.all_eq_true.mp all c (of_decide_eq_true isUpper))

end Patterns

end Vbe.Wildcard
