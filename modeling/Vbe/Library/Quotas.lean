import Mathlib.Data.List.Nodup
import Vbe.Library.Distinct

/-! Several kinds of quotas over one list. Each kind names a key for every element and keeps the
first element of each of its first keys. Kinds that share one record of the keys that are taken
keep what they would keep on their own exactly where no two kinds keep the same key. -/
namespace Vbe.Library.Quotas
open Vbe.Library.Distinct

variable {τ α κ : Type} [DecidableEq τ] [DecidableEq κ]

structure Rules (τ α κ : Type) where
  key : τ → α → κ
  admits : τ → α → Bool
  quota : τ → Nat

namespace Rules
variable (r : Rules τ α κ)

section Alone

/-- The keys of what a kind admits. -/
def keys (t : τ) (l : List α) : List κ := (l.filter (r.admits t)).map (r.key t)

/-- The first keys of a kind, as many as its quota. -/
def kept (t : τ) (l : List α) : List κ := (distinct (r.keys t l)).take (r.quota t)

/-- The number that a kind on its own gives to an element behind others: it must be the first of
its key, and the key one of the first keys. -/
def number (t : τ) (before : List α) (a : α) : Option Nat :=
  if r.admits t a ∧ r.key t a ∉ r.keys t before ∧ (distinct (r.keys t before)).length < r.quota t then
    some ((distinct (r.keys t before)).length + 1)
  else none

end Alone

section Shared

structure Ledger (τ κ : Type) where
  taken : List κ
  count : τ → Nat

def Ledger.empty : Ledger τ κ := ⟨[],fun _ => 0⟩

def Ledger.take (g : Ledger τ κ) (t : τ) (k : κ) : Ledger τ κ :=
  ⟨g.taken ++ [k],Function.update g.count t (g.count t + 1)⟩

omit [DecidableEq κ] in
theorem Ledger.count_take_self (g : Ledger τ κ) (t : τ) (k : κ) : (g.take t k).count t = g.count t + 1 :=
  Function.update_self ..

omit [DecidableEq κ] in
theorem Ledger.count_take_of_ne (g : Ledger τ κ) {t t' : τ} (other : t' ≠ t) (k : κ) : (g.take t k).count t' = g.count t' :=
  Function.update_of_ne other ..

/-- A kind gives the next number to an element whose key is not taken, up to its quota. -/
def offer (a : α) (t : τ) (g : Ledger τ κ) : Ledger τ κ × List (τ × Nat) :=
  if r.admits t a ∧ r.key t a ∉ g.taken ∧ g.count t < r.quota t then
    (g.take t (r.key t a),[(t,g.count t + 1)])
  else (g,[])

def offerAll (a : α) : List τ → Ledger τ κ → Ledger τ κ × List (τ × Nat)
  | [],g => (g,[])
  | t :: kinds,g =>
    let first := r.offer a t g
    let rest := offerAll a kinds first.1
    (rest.1,first.2 ++ rest.2)

def run (kinds : List τ) : Ledger τ κ → List α → Ledger τ κ × List (List (τ × Nat))
  | g,[] => (g,[])
  | g,a :: l =>
    let first := r.offerAll a kinds g
    let rest := run kinds first.1 l
    (rest.1,first.2 :: rest.2)

end Shared

/-- No two kinds keep the same key. -/
def Separate (kinds : List τ) (l : List α) : Prop :=
  ∀ t ∈ kinds, ∀ t' ∈ kinds, t ≠ t' → ∀ k ∈ r.kept t l, k ∉ r.kept t' l

/-- Every element has the numbers that the kinds on their own give it. -/
def Agrees (kinds : List τ) (l : List α) (out : List (List (τ × Nat))) : Prop :=
  ∀ i (inside : i < l.length), ∀ t ∈ kinds, ∀ n,
    (t,n) ∈ out.getD i [] ↔ r.number t (l.take i) l[i] = some n

end Rules

open Rules

section Keys
variable {r : Rules τ α κ} {t : τ} {before : List α} {a : α}

omit [DecidableEq τ] [DecidableEq κ] in
theorem keys_append : r.keys t (before ++ [a]) = r.keys t before ++ if r.admits t a then [r.key t a] else [] := by
  rw [keys,List.filter_append,List.map_append]
  cases admitted : r.admits t a with
  | true => simp [admitted,keys]
  | false => simp [admitted,keys]

omit [DecidableEq τ]

theorem distinct_append (l : List κ) (k : κ) : distinct (l ++ [k]) = note (distinct l) k := by
  rw [distinct,List.foldl_append]
  rfl

theorem number_eq_some {n : Nat} : r.number t before a = some n ↔
    r.admits t a ∧ r.key t a ∉ r.kept t before ∧ (r.kept t before).length < r.quota t ∧ n = (r.kept t before).length + 1 := by
  rw [number,kept,List.length_take]
  by_cases more : (distinct (r.keys t before)).length < r.quota t
  · have all : (distinct (r.keys t before)).take (r.quota t) = distinct (r.keys t before) := List.take_of_length_le more.le
    have length : min (r.quota t) (distinct (r.keys t before)).length = (distinct (r.keys t before)).length := by omega
    rw [all,length,mem_distinct]
    split
    next given =>
      rw [Option.some.injEq]
      exact ⟨fun same => ⟨given.1,given.2.1,given.2.2,same.symm⟩,fun same => same.2.2.2.symm⟩
    next refused =>
      constructor
      · intro absent
        contradiction
      · rintro ⟨admitted,free,room,_⟩
        exact absurd ⟨admitted,free,room⟩ refused
  · have full : ¬ min (r.quota t) (distinct (r.keys t before)).length < r.quota t := by omega
    simp [more,full]

/-- What is kept grows by the keys that get a number. -/
theorem kept_append : r.kept t (before ++ [a]) =
    r.kept t before ++ if (r.number t before a).isSome then [r.key t a] else [] := by
  rw [kept,kept,keys_append,number]
  cases admitted : r.admits t a with
  | false => simp
  | true =>
    rw [if_pos rfl,distinct_append,note]
    by_cases present : r.key t a ∈ r.keys t before
    · simp [present]
    · have absent : r.key t a ∉ distinct (r.keys t before) := by rwa [mem_distinct]
      rw [if_neg absent]
      by_cases more : (distinct (r.keys t before)).length < r.quota t
      · have whole : (distinct (r.keys t before) ++ [r.key t a]).length ≤ r.quota t := by
          rw [List.length_append,List.length_singleton]
          exact more
        rw [List.take_of_length_le whole,List.take_of_length_le more.le]
        simp [present,more]
      · rw [List.take_append_of_le_length (by omega)]
        simp [more]

/-- Kept keys stay kept. -/
theorem kept_mono (l l' : List α) : r.kept t l <+: r.kept t (l ++ l') := by
  induction l' generalizing l with
  | nil => rw [List.append_nil]
  | cons a l' ih =>
    have step : r.kept t l <+: r.kept t (l ++ [a]) := by
      rw [kept_append]
      exact List.prefix_append _ _
    have rest := ih (l ++ [a])
    rw [List.append_assoc,List.singleton_append] at rest
    exact step.trans rest

/-- Every kept key belongs to an element that has a number. -/
theorem kept_numbered {l : List α} {k : κ} (member : k ∈ r.kept t l) :
    ∃ i, ∃ inside : i < l.length, ∃ n, r.number t (l.take i) l[i] = some n ∧ r.key t l[i] = k := by
  induction l using List.reverseRecOn with
  | nil => simp [kept,keys,distinct] at member
  | append_singleton l a ih =>
    rw [kept_append] at member
    rcases List.mem_append.mp member with old | new
    · obtain ⟨i,inside,n,numbered,own⟩ := ih old
      refine ⟨i,by rw [List.length_append]; omega,n,?_,?_⟩
      · rw [List.take_append_of_le_length inside.le,List.getElem_append_left inside]
        exact numbered
      · rw [List.getElem_append_left inside]
        exact own
    · split at new
      next numbered =>
        obtain ⟨n,given⟩ := Option.isSome_iff_exists.mp numbered
        refine ⟨l.length,by simp,n,?_,?_⟩
        · simpa using given
        · simpa using (List.mem_singleton.mp new).symm
      next => simp at new

end Keys

section Agreement
variable {r : Rules τ α κ} {kinds seen rest : List τ} {before : List α} {a : α} {t : τ} {g : Ledger τ κ}

/-- The record holds what the kinds on their own keep: those before have seen the element, the
others have not. -/
structure Records (r : Rules τ α κ) (seen rest : List τ) (before : List α) (a : α) (g : Ledger τ κ) : Prop where
  taken : ∀ k, k ∈ g.taken ↔ (∃ t ∈ seen, k ∈ r.kept t (before ++ [a])) ∨ ∃ t ∈ rest, k ∈ r.kept t before
  seen : ∀ t ∈ seen, g.count t = (r.kept t (before ++ [a])).length
  rest : ∀ t ∈ rest, g.count t = (r.kept t before).length

/-- No other kind keeps what a kind keeps. -/
def Apart (r : Rules τ α κ) (t : τ) (others : List τ) (l : List α) : Prop :=
  ∀ t' ∈ others, ∀ k ∈ r.kept t l, k ∉ r.kept t' l

omit [DecidableEq τ] in
theorem offer_free (records : Records r seen (t :: rest) before a g) (apart : Apart r t (seen ++ rest) (before ++ [a])) :
    (r.admits t a ∧ r.key t a ∉ g.taken ∧ g.count t < r.quota t) ↔ (r.number t before a).isSome := by
  have own : g.count t = (r.kept t before).length := records.rest t (by simp)
  constructor
  · rintro ⟨admitted,free,room⟩
    have absent : r.key t a ∉ r.kept t before := fun member =>
      free ((records.taken _).mpr (.inr ⟨t,by simp,member⟩))
    rw [own] at room
    rw [number_eq_some.mpr ⟨admitted,absent,room,rfl⟩]
    rfl
  · intro numbered
    obtain ⟨n,given⟩ := Option.isSome_iff_exists.mp numbered
    obtain ⟨admitted,absent,room,_⟩ := number_eq_some.mp given
    have new : r.key t a ∈ r.kept t (before ++ [a]) := by
      rw [kept_append,if_pos numbered]
      simp
    refine ⟨admitted,?_,by rw [own]; exact room⟩
    intro taken
    rcases (records.taken _).mp taken with ⟨t',earlier,member⟩ | ⟨t',later,member⟩
    · exact apart t' (by simp [earlier]) _ new member
    · rcases List.mem_cons.mp later with rfl | other
      · exact absent member
      · exact apart t' (by simp [other]) _ new ((kept_mono before [a]).subset member)

/-- A kind adds to the record what it adds on its own. -/
theorem offer_spec (records : Records r seen (t :: rest) before a g) (apart : Apart r t (seen ++ rest) (before ++ [a]))
    (unseen : t ∉ seen) (single : t ∉ rest) :
    (r.offer a t g).2 = ((r.number t before a).map fun n => (t,n)).toList ∧
      Records r (seen ++ [t]) rest before a (r.offer a t g).1 := by
  have free := offer_free records apart
  have own : g.count t = (r.kept t before).length := records.rest t (by simp)
  cases given : r.number t before a with
  | some n =>
    have numbered : (r.number t before a).isSome := by rw [given]; rfl
    have grows : r.kept t (before ++ [a]) = r.kept t before ++ [r.key t a] := by rw [kept_append,if_pos numbered]
    obtain ⟨_,_,_,count⟩ := number_eq_some.mp given
    rw [offer,if_pos (free.mpr numbered)]
    refine ⟨by simp [own,count],?_,?_,?_⟩
    · intro k
      simp only [Ledger.take,List.mem_append,List.mem_singleton,records.taken]
      constructor
      · rintro ((⟨t',earlier,member⟩ | ⟨t',later,member⟩) | rfl)
        · exact .inl ⟨t',.inl earlier,member⟩
        · rcases List.mem_cons.mp later with rfl | other
          · exact .inl ⟨t',.inr rfl,by rw [grows]; exact List.mem_append_left _ member⟩
          · exact .inr ⟨t',other,member⟩
        · exact .inl ⟨t,.inr rfl,by rw [grows]; simp⟩
      · rintro (⟨t',earlier | rfl,member⟩ | ⟨t',later,member⟩)
        · exact .inl (.inl ⟨t',earlier,member⟩)
        · rw [grows] at member
          rcases List.mem_append.mp member with old | new
          · exact .inl (.inr ⟨t',by simp,old⟩)
          · exact .inr (List.mem_singleton.mp new)
        · exact .inl (.inr ⟨t',by simp [later],member⟩)
    · intro t' earlier
      rcases List.mem_append.mp earlier with old | new
      · have other : t' ≠ t := fun same => unseen (same ▸ old)
        exact (g.count_take_of_ne other _).trans (records.seen t' old)
      · cases List.mem_singleton.mp new
        refine (g.count_take_self t _).trans ?_
        rw [own,grows,List.length_append]
        rfl
    · intro t' later
      have other : t' ≠ t := fun same => single (same ▸ later)
      exact (g.count_take_of_ne other _).trans (records.rest t' (by simp [later]))
  | none =>
    have refused : ¬ (r.number t before a).isSome := by rw [given]; simp
    have same : r.kept t (before ++ [a]) = r.kept t before := by rw [kept_append,if_neg refused,List.append_nil]
    rw [offer,if_neg (mt free.mp refused)]
    refine ⟨rfl,?_,?_,?_⟩
    · intro k
      rw [records.taken]
      simp only [List.mem_append,List.mem_cons,List.not_mem_nil,or_false]
      constructor
      · rintro (⟨t',earlier,member⟩ | ⟨t',rfl | later,member⟩)
        · exact .inl ⟨t',.inl earlier,member⟩
        · exact .inl ⟨t',.inr rfl,by rw [same]; exact member⟩
        · exact .inr ⟨t',later,member⟩
      · rintro (⟨t',earlier | rfl,member⟩ | ⟨t',later,member⟩)
        · exact .inl ⟨t',earlier,member⟩
        · exact .inr ⟨t',.inl rfl,same ▸ member⟩
        · exact .inr ⟨t',.inr later,member⟩
    · intro t' earlier
      rcases List.mem_append.mp earlier with old | new
      · exact records.seen t' old
      · cases List.mem_singleton.mp new
        rw [own,same]
    · intro t' later
      exact records.rest t' (by simp [later])

theorem offerAll_spec (records : Records r seen rest before a g) (nodup : (seen ++ rest).Nodup)
    (apart : ∀ t ∈ rest, ∀ t' ∈ seen ++ rest, t ≠ t' → ∀ k ∈ r.kept t (before ++ [a]), k ∉ r.kept t' (before ++ [a])) :
    (r.offerAll a rest g).2 = rest.filterMap (fun t => (r.number t before a).map fun n => (t,n)) ∧
      Records r (seen ++ rest) [] before a (r.offerAll a rest g).1 := by
  induction rest generalizing seen g with
  | nil =>
    rw [List.append_nil]
    exact ⟨rfl,records⟩
  | cons t rest ih =>
    have order : seen ++ t :: rest = seen ++ [t] ++ rest := by simp
    obtain ⟨unseen,single⟩ : t ∉ seen ∧ t ∉ rest := by
      have parts := List.nodup_append.mp nodup
      exact ⟨fun member => parts.2.2 t member t (by simp) rfl,(List.nodup_cons.mp parts.2.1).1⟩
    have own : Apart r t (seen ++ rest) (before ++ [a]) := by
      intro t' other
      have differs : t ≠ t' := by
        rintro rfl
        rcases List.mem_append.mp other with there | there
        · exact unseen there
        · exact single there
      apply apart t (by simp) t' _ differs
      rcases List.mem_append.mp other with there | there
      · simp [there]
      · simp [there]
    obtain ⟨tags,records'⟩ := offer_spec records own unseen single
    obtain ⟨more,done⟩ := ih records' (order ▸ nodup) (by
      intro t' later
      rw [← order]
      exact apart t' (by simp [later]))
    rw [offerAll,order]
    refine ⟨?_,done⟩
    simp only [tags,more]
    cases given : r.number t before a with
    | none => simp [given]
    | some n => simp [given]

/-- The numbers of the kinds on their own. -/
def alone (r : Rules τ α κ) (kinds : List τ) (before : List α) (a : α) : List (τ × Nat) :=
  kinds.filterMap fun t => (r.number t before a).map fun n => (t,n)

omit [DecidableEq τ] in
theorem mem_alone {n : Nat} : (t,n) ∈ alone r kinds before a ↔ t ∈ kinds ∧ r.number t before a = some n := by
  rw [alone,List.mem_filterMap]
  constructor
  · rintro ⟨t',member,given⟩
    obtain ⟨m,numbered,same⟩ := Option.map_eq_some_iff.mp given
    cases same
    exact ⟨member,numbered⟩
  · rintro ⟨member,numbered⟩
    exact ⟨t,member,by rw [numbered]; rfl⟩

/-- What the record holds between two elements. -/
structure Keeps (r : Rules τ α κ) (kinds : List τ) (before : List α) (g : Ledger τ κ) : Prop where
  taken : ∀ k, k ∈ g.taken ↔ ∃ t ∈ kinds, k ∈ r.kept t before
  count : ∀ t ∈ kinds, g.count t = (r.kept t before).length

omit [DecidableEq τ] in
theorem Keeps.empty : Keeps r kinds [] Ledger.empty := by
  refine ⟨fun k => ?_,fun t _ => ?_⟩
  · simp [Ledger.empty,kept,keys,distinct]
  · simp [Ledger.empty,kept,keys,distinct]

/-- The kinds give an element what they give on their own. -/
theorem offerAll_alone (nodup : kinds.Nodup) {l : List α} (keeps : Keeps r kinds before g)
    (separate : r.Separate kinds (before ++ a :: l)) :
    (r.offerAll a kinds g).2 = alone r kinds before a ∧ Keeps r kinds (before ++ [a]) (r.offerAll a kinds g).1 := by
  have whole : before ++ a :: l = before ++ [a] ++ l := by simp
  have records : Records r [] kinds before a g := by
    refine ⟨fun k => ?_,by simp,keeps.count⟩
    rw [keeps.taken]
    simp
  have apart : ∀ t ∈ kinds, ∀ t' ∈ [] ++ kinds, t ≠ t' → ∀ k ∈ r.kept t (before ++ [a]), k ∉ r.kept t' (before ++ [a]) := by
    intro t member t' other differs k own common
    rw [whole] at separate
    exact separate t member t' other differs k ((kept_mono _ l).subset own) ((kept_mono _ l).subset common)
  obtain ⟨tags,records'⟩ := offerAll_spec records (by simpa using nodup) apart
  refine ⟨tags,fun k => ?_,records'.seen⟩
  rw [records'.taken]
  simp

theorem run_alone (nodup : kinds.Nodup) (l : List α) (keeps : Keeps r kinds before g) (separate : r.Separate kinds (before ++ l)) :
    ∀ i (inside : i < l.length), (r.run kinds g l).2.getD i [] = alone r kinds (before ++ l.take i) l[i] := by
  induction l generalizing before g with
  | nil => simp
  | cons a l ih =>
    have whole : before ++ a :: l = before ++ [a] ++ l := by simp
    obtain ⟨tags,keeps'⟩ := offerAll_alone nodup keeps separate
    have rest := ih keeps' (whole ▸ separate)
    intro i inside
    rw [run]
    cases i with
    | zero => simpa using tags
    | succ i =>
      have later := rest i (by simpa using inside)
      simpa using later

/-- Kinds that keep no common key are as they are on their own. -/
theorem agrees_of_separate (nodup : kinds.Nodup) {l : List α} (separate : r.Separate kinds l) :
    r.Agrees kinds l (r.run kinds Ledger.empty l).2 := by
  intro i inside t member n
  rw [run_alone nodup l Keeps.empty separate i inside,List.nil_append,mem_alone]
  exact ⟨fun given => given.2,fun given => ⟨member,given⟩⟩

end Agreement

section Conflicts
variable {r : Rules τ α κ} {kinds : List τ} {a : α} {g : Ledger τ κ}

/-- Every number that is given takes a key, and no key is taken twice. -/
theorem offerAll_taken (free : g.taken.Nodup) :
    (r.offerAll a kinds g).1.taken = g.taken ++ (r.offerAll a kinds g).2.map (fun tag => r.key tag.1 a) ∧
      (r.offerAll a kinds g).1.taken.Nodup := by
  induction kinds generalizing g with
  | nil => simpa [offerAll] using free
  | cons t kinds ih =>
    have first : (r.offer a t g).1.taken = g.taken ++ (r.offer a t g).2.map (fun tag => r.key tag.1 a) ∧
        (r.offer a t g).1.taken.Nodup := by
      rw [offer]
      split
      next given =>
        refine ⟨rfl,?_⟩
        rw [Ledger.take,List.nodup_append]
        refine ⟨free,by simp,?_⟩
        intro k old k' new same
        have own : k' = r.key t a := by simpa using new
        exact given.2.1 (own ▸ same ▸ old)
      next => exact ⟨by simp,free⟩
    obtain ⟨taken,nodup⟩ := ih first.2
    rw [offerAll]
    refine ⟨?_,nodup⟩
    rw [taken,first.1,List.map_append,List.append_assoc]

theorem run_taken (kinds : List τ) (l : List α) (free : g.taken.Nodup) :
    (r.run kinds g l).1.taken = g.taken ++
      (List.zipWith (fun a tags => tags.map fun tag => r.key tag.1 a) l (r.run kinds g l).2).flatten ∧
      (r.run kinds g l).1.taken.Nodup ∧ (r.run kinds g l).2.length = l.length := by
  induction l generalizing g with
  | nil => exact ⟨by simp [run],free,rfl⟩
  | cons a l ih =>
    obtain ⟨taken,nodup⟩ := offerAll_taken (r := r) (a := a) free
    obtain ⟨taken',nodup',length⟩ := ih nodup
    rw [run]
    refine ⟨?_,nodup',by simp [length]⟩
    simp only [List.zipWith_cons_cons,List.flatten_cons]
    rw [taken',taken,List.append_assoc]

/-- Where two kinds keep the same key, one of them is not as it is on its own. -/
theorem separate_of_agrees {l : List α} (agrees : r.Agrees kinds l (r.run kinds Ledger.empty l).2) : r.Separate kinds l := by
  intro t member t' member' differs k own common
  obtain ⟨i,inside,n,numbered,key⟩ := kept_numbered own
  obtain ⟨j,inside',n',numbered',key'⟩ := kept_numbered common
  have given := (agrees i inside t member n).mpr numbered
  have given' := (agrees j inside' t' member' n').mpr numbered'
  obtain ⟨taken,nodup,length⟩ := run_taken (r := r) (g := Ledger.empty) kinds l List.nodup_nil
  have none : (Ledger.empty : Ledger τ κ).taken = [] := rfl
  rw [taken,none,List.nil_append] at nodup
  obtain ⟨each,pairs⟩ := List.nodup_flatten.mp nodup
  generalize (r.run kinds Ledger.empty l).2 = out at *
  have piece (i : Nat) (inside : i < l.length) :
      ∃ _ : i < (List.zipWith (fun a tags => tags.map fun tag => r.key tag.1 a) l out).length,
        (List.zipWith (fun a tags => tags.map fun tag => r.key tag.1 a) l out)[i] =
          (out.getD i []).map fun tag => r.key tag.1 l[i] := by
    refine ⟨by simp [length,inside],?_⟩
    rw [List.getElem_zipWith]
    simp [length,inside]
  obtain ⟨bound,first⟩ := piece i inside
  obtain ⟨bound',second⟩ := piece j inside'
  have there : k ∈ (List.zipWith (fun a tags => tags.map fun tag => r.key tag.1 a) l out)[i] := by
    rw [first]
    exact List.mem_map.mpr ⟨_,given,key⟩
  have there' : k ∈ (List.zipWith (fun a tags => tags.map fun tag => r.key tag.1 a) l out)[j] := by
    rw [second]
    exact List.mem_map.mpr ⟨_,given',key'⟩
  rcases Nat.lt_trichotomy i j with less | same | more
  · exact List.pairwise_iff_getElem.mp pairs i j bound bound' less there there'
  · subst same
    have single := each _ (List.getElem_mem bound)
    rw [first] at single
    have equal := List.inj_on_of_nodup_map single given given' (key.trans key'.symm)
    exact differs (Prod.mk.inj equal).1
  · exact List.pairwise_iff_getElem.mp pairs j i bound' bound more there' there

theorem agrees_iff_separate (nodup : kinds.Nodup) (l : List α) :
    r.Agrees kinds l (r.run kinds Ledger.empty l).2 ↔ r.Separate kinds l :=
  ⟨separate_of_agrees,agrees_of_separate nodup⟩

end Conflicts

section Recoded
variable {r : Rules τ α κ} {κ' : Type} [DecidableEq κ'] {r' : Rules τ α κ'} {t : τ} {before : List α} {a : α}

omit [DecidableEq τ]

/-- Keys that tell the same elements apart are as many. -/
theorem distinct_recoded {f : α → κ} {g : α → κ'} (same : ∀ a b, f a = f b ↔ g a = g b) (l : List α) :
    (distinct (l.map f)).length = (distinct (l.map g)).length := by
  induction l using List.reverseRecOn with
  | nil => rfl
  | append_singleton l a ih =>
    have member : f a ∈ distinct (l.map f) ↔ g a ∈ distinct (l.map g) := by
      simp only [mem_distinct,List.mem_map,same]
    rw [List.map_append,List.map_append,List.map_singleton,List.map_singleton,distinct_append,distinct_append,note,note]
    by_cases old : f a ∈ distinct (l.map f)
    · rw [if_pos old,if_pos (member.mp old),ih]
    · rw [if_neg old,if_neg (mt member.mpr old),List.length_append,List.length_append,ih]
      rfl

/-- What a kind gives depends on which elements have a common key, and not on the keys. -/
theorem number_recoded (admits : r'.admits t = r.admits t) (quota : r'.quota t = r.quota t)
    (same : ∀ a b, r'.key t a = r'.key t b ↔ r.key t a = r.key t b) : r'.number t before a = r.number t before a := by
  have count := distinct_recoded same (before.filter (r.admits t))
  have member : r'.key t a ∈ (before.filter (r.admits t)).map (r'.key t) ↔ r.key t a ∈ (before.filter (r.admits t)).map (r.key t) := by
    simp only [List.mem_map,same]
  rw [number,number,keys,keys,admits,quota,count]
  simp only [member]

end Recoded

section Raised
variable {r : Rules τ α κ} {t : τ} {q : Nat} {rest : List τ} {before : List α} {a : α} {g : Ledger τ κ}

/-- The rules with another quota for one kind. -/
def Rules.raise (r : Rules τ α κ) (t : τ) (q : Nat) : Rules τ α κ := {r with quota := Function.update r.quota t q}

/-- A kind gives no number past its quota. -/
def Bounded (r : Rules τ α κ) (t : τ) (out : List (List (τ × Nat))) : Prop :=
  ∀ tags ∈ out, ∀ n, (t,n) ∈ tags → n ≤ r.quota t

/-- An element that is admitted behind a full quota has a key that is taken. -/
def Blocked (r : Rules τ α κ) (kinds : List τ) (t : τ) (before : List α) (a : α) : Prop :=
  r.admits t a → (r.kept t before).length = r.quota t → ∃ t' ∈ kinds, r.key t a ∈ r.kept t' before

theorem offer_raised_of_ne {t' : τ} (other : t' ≠ t) : (r.raise t q).offer a t' g = r.offer a t' g := by
  have quota : (r.raise t q).quota t' = r.quota t' := Function.update_of_ne other ..
  rw [offer,offer,quota]
  rfl

theorem offerAll_raised_of_notMem (absent : t ∉ rest) : (r.raise t q).offerAll a rest g = r.offerAll a rest g := by
  induction rest generalizing g with
  | nil => rfl
  | cons t' rest ih =>
    have other : t' ≠ t := fun same => absent (same ▸ List.mem_cons_self)
    rw [offerAll,offerAll,offer_raised_of_ne other,ih (mt (List.mem_cons_of_mem _) absent)]

theorem offer_raise_self : (r.raise t q).offer a t g =
    if r.admits t a ∧ r.key t a ∉ g.taken ∧ g.count t < q then (g.take t (r.key t a),[(t,g.count t + 1)]) else (g,[]) := by
  have quota : (r.raise t q).quota t = q := Function.update_self ..
  rw [offer,quota]
  rfl

/-- A raised quota gives the same, or a number past the quota. -/
theorem offer_raised (more : r.quota t ≤ q) :
    (r.raise t q).offer a t g = r.offer a t g ∨
      (r.admits t a ∧ r.key t a ∉ g.taken ∧ r.quota t ≤ g.count t) ∧ ((r.raise t q).offer a t g).2 = [(t,g.count t + 1)] := by
  rw [offer_raise_self]
  by_cases full : r.quota t ≤ g.count t
  · by_cases given : r.admits t a ∧ r.key t a ∉ g.taken ∧ g.count t < q
    · right
      refine ⟨⟨given.1,given.2.1,full⟩,?_⟩
      rw [if_pos given]
    · left
      rw [offer,if_neg given,if_neg fun free => absurd free.2.2 (by omega)]
  · left
    have less : g.count t < r.quota t := by omega
    have less' : g.count t < q := by omega
    rw [offer]
    simp only [less,less']

theorem offerAll_raised (more : r.quota t ≤ q) (absent : t ∉ rest)
    (bounded : ∀ n, (t,n) ∈ ((r.raise t q).offerAll a (t :: rest) g).2 → n ≤ r.quota t) :
    (r.raise t q).offerAll a (t :: rest) g = r.offerAll a (t :: rest) g := by
  rcases offer_raised (a := a) (g := g) more with same | ⟨⟨_,_,full⟩,given⟩
  · rw [offerAll,offerAll,same,offerAll_raised_of_notMem absent]
  · have past := bounded (g.count t + 1) (by
      rw [offerAll]
      simp only
      rw [given]
      exact List.mem_append_left _ (List.mem_singleton.mpr rfl))
    omega

theorem run_raised (more : r.quota t ≤ q) (absent : t ∉ rest) (l : List α)
    (bounded : Bounded r t ((r.raise t q).run (t :: rest) g l).2) :
    (r.raise t q).run (t :: rest) g l = r.run (t :: rest) g l := by
  induction l generalizing g with
  | nil => rfl
  | cons a l ih =>
    rw [run] at bounded ⊢
    have first := offerAll_raised more absent (bounded _ List.mem_cons_self)
    rw [run]
    simp only [first] at bounded ⊢
    rw [ih fun tags member => bounded tags (List.mem_cons_of_mem _ member)]

theorem Keeps.next (nodup : (t :: rest).Nodup) {l : List α} (keeps : Keeps r (t :: rest) before g)
    (separate : r.Separate (t :: rest) (before ++ a :: l)) : Keeps r (t :: rest) (before ++ [a]) (r.offerAll a (t :: rest) g).1 :=
  (offerAll_alone nodup keeps separate).2

/-- Behind a full quota the raised one gives nothing exactly to elements with a key that is taken. -/
theorem bounded_iff_blocked (more : r.quota t < q) (nodup : (t :: rest).Nodup) (l : List α) (keeps : Keeps r (t :: rest) before g)
    (separate : r.Separate (t :: rest) (before ++ l)) :
    Bounded r t ((r.raise t q).run (t :: rest) g l).2 ↔
      ∀ i (inside : i < l.length), Blocked r (t :: rest) t (before ++ l.take i) l[i] := by
  induction l generalizing before g with
  | nil => simp [Bounded,run]
  | cons a l ih =>
    have absent := (List.nodup_cons.mp nodup).1
    have own : g.count t = (r.kept t before).length := keeps.count t List.mem_cons_self
    have whole : before ++ a :: l = before ++ [a] ++ l := by simp
    have rest' := ih (keeps.next nodup separate) (whole ▸ separate)
    have first : (∀ n, (t,n) ∈ ((r.raise t q).offerAll a (t :: rest) g).2 → n ≤ r.quota t) ↔ Blocked r (t :: rest) t before a := by
      constructor
      · intro bounded admitted full
        by_contra free
        have untaken : r.key t a ∉ g.taken := by rwa [keeps.taken]
        have past := bounded (g.count t + 1) (by
          rw [offerAll,offer_raise_self]
          simp only
          rw [if_pos ⟨admitted,untaken,by omega⟩]
          exact List.mem_append_left _ (List.mem_singleton.mpr rfl))
        omega
      · intro blocked n member
        rcases offer_raised (a := a) (g := g) more.le with same | ⟨⟨admitted,untaken,full⟩,_⟩
        · have equal : (r.raise t q).offerAll a (t :: rest) g = r.offerAll a (t :: rest) g := by
            rw [offerAll,offerAll,same,offerAll_raised_of_notMem absent]
          rw [equal,(offerAll_alone nodup keeps separate).1,mem_alone] at member
          obtain ⟨_,_,room,number⟩ := number_eq_some.mp member.2
          omega
        · have most : (r.kept t before).length ≤ r.quota t := List.length_take_le ..
          exact absurd ((keeps.taken _).mpr (blocked admitted (by omega))) untaken
    constructor
    · intro bounded i inside
      rw [run] at bounded
      have head := bounded _ List.mem_cons_self
      cases i with
      | zero =>
        rw [List.take_zero,List.append_nil]
        exact first.mp head
      | succ i =>
        simp only [offerAll_raised more.le absent head] at bounded
        have later := rest'.mp (fun tags member => bounded tags (List.mem_cons_of_mem _ member)) i (by simpa using inside)
        simpa using later
    · intro blocked
      have here := blocked 0 (Nat.zero_lt_succ _)
      rw [List.take_zero,List.append_nil] at here
      have head := first.mpr here
      rw [run]
      simp only [offerAll_raised more.le absent head]
      intro tags member
      rcases List.mem_cons.mp member with rfl | later
      · rw [← offerAll_raised more.le absent head]
        exact head
      · refine rest'.mpr ?_ tags later
        intro i inside
        have there := blocked (i + 1) (Nat.succ_lt_succ inside)
        rw [List.take_succ_cons] at there
        rw [List.append_assoc]
        exact there

/-- Under a raised quota the kinds are as they are on their own exactly where they keep no common
key and every element behind the full quota has a key that is taken. -/
theorem agrees_raised_iff (more : r.quota t < q) (nodup : (t :: rest).Nodup) (l : List α) :
    r.Agrees (t :: rest) l ((r.raise t q).run (t :: rest) Ledger.empty l).2 ↔
      r.Separate (t :: rest) l ∧ ∀ i (inside : i < l.length), Blocked r (t :: rest) t (l.take i) l[i] := by
  have absent := (List.nodup_cons.mp nodup).1
  constructor
  · intro agrees
    have bounded : Bounded r t ((r.raise t q).run (t :: rest) Ledger.empty l).2 := by
      intro tags member n given
      obtain ⟨i,inside,place⟩ := List.getElem_of_mem member
      have length := (run_taken (r := r.raise t q) (g := Ledger.empty) (t :: rest) l List.nodup_nil).2.2
      have numbered := (agrees i (length ▸ inside) t List.mem_cons_self n).mp (by
        rw [List.getD_eq_getElem?_getD,List.getElem?_eq_getElem inside,place]
        exact given)
      obtain ⟨_,_,room,number⟩ := number_eq_some.mp numbered
      omega
    rw [run_raised more.le absent l bounded] at agrees
    have separate := separate_of_agrees agrees
    refine ⟨separate,?_⟩
    simpa using (bounded_iff_blocked more nodup l Keeps.empty separate).mp bounded
  · rintro ⟨separate,blocked⟩
    have bounded := (bounded_iff_blocked more nodup l Keeps.empty separate).mpr (by simpa using blocked)
    rw [run_raised more.le absent l bounded]
    exact agrees_of_separate nodup separate

end Raised

end Vbe.Library.Quotas
