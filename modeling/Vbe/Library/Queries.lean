import Mathlib.Data.List.Basic
import Mathlib.Data.Set.Basic

/-! Programs that consult a store. A program answers, fails, or asks the store one question and
goes on with the reply, so that it depends on the store only through the questions it asks. A
program with a bound on its recursion refines the same program with a smaller bound: where the
smaller bound was enough, both do the same. -/
namespace Vbe.Library

inductive Query (ι ρ ε α : Type)
  | answer (a : α)
  | fail (e : ε)
  | ask (i : ι) (next : ρ → Query ι ρ ε α)

namespace Query
variable {ι ρ ε α β : Type}

def bind : Query ι ρ ε α → (α → Query ι ρ ε β) → Query ι ρ ε β
  | answer a, f => f a
  | fail e, _ => fail e
  | ask i next, f => ask i fun reply => (next reply).bind f

instance : Monad (Query ι ρ ε) where
  pure := answer
  bind := bind

def outcome (store : ι → ρ) : Query ι ρ ε α → Except ε α
  | answer a => .ok a
  | fail e => .error e
  | ask i next => (next (store i)).outcome store

def asked (store : ι → ρ) : Query ι ρ ε α → List ι
  | answer _ => []
  | fail _ => []
  | ask i next => i :: (next (store i)).asked store

section Runs
variable {store store' : ι → ρ} {p : Query ι ρ ε α} {f : α → Query ι ρ ε β}

@[simp] theorem outcome_pure (a : α) : (pure a : Query ι ρ ε α).outcome store = .ok a := rfl

@[simp] theorem outcome_fail (e : ε) : (fail e : Query ι ρ ε α).outcome store = .error e := rfl

@[simp] theorem outcome_ask (i : ι) (next : ρ → Query ι ρ ε α) :
    (ask i next).outcome store = (next (store i)).outcome store := rfl

@[simp] theorem outcome_bind : (p >>= f).outcome store = p.outcome store >>= fun a => (f a).outcome store := by
  change (p.bind f).outcome store = _
  induction p with
  | answer a => rfl
  | fail e => rfl
  | ask i next ih => exact ih (store i)

theorem asked_bind_ok {a : α} (done : p.outcome store = .ok a) :
    (p >>= f).asked store = p.asked store ++ (f a).asked store := by
  change (p.bind f).asked store = _
  induction p with
  | answer b =>
    cases Except.ok.inj done
    rfl
  | fail e => contradiction
  | ask i next ih => exact congrArg (i :: ·) (ih (store i) done)

theorem asked_bind_error {e : ε} (failed : p.outcome store = .error e) :
    (p >>= f).asked store = p.asked store := by
  change (p.bind f).asked store = _
  induction p with
  | answer b => contradiction
  | fail e => rfl
  | ask i next ih => exact congrArg (i :: ·) (ih (store i) failed)

/-- A store that replies the same to what was asked leads to the same run. -/
theorem run_congr (agree : ∀ i ∈ p.asked store, store' i = store i) :
    p.outcome store' = p.outcome store ∧ p.asked store' = p.asked store := by
  induction p with
  | answer a => exact ⟨rfl,rfl⟩
  | fail e => exact ⟨rfl,rfl⟩
  | ask i next ih =>
    have reply : store' i = store i := agree i List.mem_cons_self
    obtain ⟨same,questions⟩ := ih (store i) fun j member => agree j (List.mem_cons_of_mem _ member)
    constructor
    · rw [outcome_ask,outcome_ask,reply,same]
    · rw [asked,asked,reply,questions]

theorem outcome_bind_ok {b : β} : (p >>= f).outcome store = .ok b ↔
    ∃ a, p.outcome store = .ok a ∧ (f a).outcome store = .ok b := by
  rw [outcome_bind]
  cases p.outcome store with
  | error e => simp [Bind.bind,Except.bind]
  | ok a => simp [Bind.bind,Except.bind]

end Runs

section Holds
variable {store : ι → ρ}

/-- An answer and what was asked for it satisfy a condition. -/
def Holds (store : ι → ρ) (p : Query ι ρ ε α) (post : List ι → α → Prop) : Prop :=
  ∀ a, p.outcome store = .ok a → post (p.asked store) a

theorem Holds.answer {a : α} {post : List ι → α → Prop} (holds : post [] a) :
    (pure a : Query ι ρ ε α).Holds store post := by
  intro b answered
  cases Except.ok.inj answered
  exact holds

theorem Holds.fail (e : ε) (post : List ι → α → Prop) : (fail e : Query ι ρ ε α).Holds store post := by
  intro b answered
  contradiction

theorem Holds.ask {i : ι} {next : ρ → Query ι ρ ε α} {post : List ι → α → Prop}
    (rest : (next (store i)).Holds store fun questions => post (i :: questions)) : (ask i next).Holds store post :=
  fun a answered => rest a answered

theorem Holds.bind {p : Query ι ρ ε α} {f : α → Query ι ρ ε β} {mid : List ι → α → Prop} {post : List ι → β → Prop}
    (first : p.Holds store mid)
    (rest : ∀ questions a, mid questions a → (f a).Holds store fun more => post (questions ++ more)) :
    (p >>= f).Holds store post := by
  intro b answered
  obtain ⟨a,one,two⟩ := outcome_bind_ok.mp answered
  rw [asked_bind_ok one]
  exact rest _ a (first a one) b two

theorem Holds.imp {p : Query ι ρ ε α} {mid post : List ι → α → Prop} (holds : p.Holds store mid)
    (weaken : ∀ questions a, mid questions a → post questions a) : p.Holds store post :=
  fun a answered => weaken _ a (holds a answered)

end Holds

section Gives
variable {store : ι → ρ}

/-- A run ends with an answer and asks at least these questions. -/
def Gives (store : ι → ρ) (p : Query ι ρ ε α) (a : α) (S : Set ι) : Prop :=
  p.outcome store = .ok a ∧ ∀ i ∈ S, i ∈ p.asked store

theorem Gives.answer (a : α) : (pure a : Query ι ρ ε α).Gives store a ∅ := ⟨rfl,fun _ absurd => absurd.elim⟩

theorem Gives.bind {p : Query ι ρ ε α} {f : α → Query ι ρ ε β} {a : α} {b : β} {S T : Set ι} (first : p.Gives store a S)
    (rest : (f a).Gives store b T) : (p >>= f).Gives store b (S ∪ T) := by
  refine ⟨outcome_bind_ok.mpr ⟨a,first.1,rest.1⟩,?_⟩
  intro i member
  rw [asked_bind_ok first.1,List.mem_append]
  exact member.imp (first.2 i) (rest.2 i)

theorem Gives.mono {p : Query ι ρ ε α} {a : α} {S T : Set ι} (gives : p.Gives store a S) (fewer : T ⊆ S) : p.Gives store a T :=
  ⟨gives.1,fun i member => gives.2 i (fewer member)⟩

theorem Gives.bind_answer {p : Query ι ρ ε α} {f : α → Query ι ρ ε β} {a : α} {b : β} {S : Set ι} (first : p.Gives store a S)
    (rest : f a = pure b) : (p >>= f).Gives store b S := by
  have both := first.bind (rest ▸ Gives.answer b)
  rwa [Set.union_empty] at both

/-- What is left to the rest is asked there, up to what is left after it. -/
theorem Gives.bind_diff {p : Query ι ρ ε α} {f : α → Query ι ρ ε β} {a : α} {b : β} {S T U : Set ι}
    (first : p.Gives store a (S \ T)) (rest : (f a).Gives store b (T \ U)) : (p >>= f).Gives store b (S \ U) := by
  apply (first.bind rest).mono
  rintro i ⟨there,outside⟩
  by_cases later : i ∈ T
  · exact .inr ⟨later,outside⟩
  · exact .inl ⟨there,later⟩

end Gives

section Refines
variable {stuck : ε}

def Refines (stuck : ε) (q p : Query ι ρ ε α) : Prop :=
  ∀ store, p.outcome store ≠ .error stuck → q.outcome store = p.outcome store ∧ q.asked store = p.asked store

theorem Refines.refl (p : Query ι ρ ε α) : p.Refines stuck p := fun _ _ => ⟨rfl,rfl⟩

theorem Refines.trans {p q r : Query ι ρ ε α} (upper : r.Refines stuck q) (lower : q.Refines stuck p) : r.Refines stuck p := by
  intro store ended
  obtain ⟨same,questions⟩ := lower store ended
  obtain ⟨same',questions'⟩ := upper store (by rwa [same])
  exact ⟨same'.trans same,questions'.trans questions⟩

theorem refines_fail (q : Query ι ρ ε α) : q.Refines stuck (fail stuck) := fun _ ended => absurd rfl ended

theorem Refines.bind {p q : Query ι ρ ε α} {f g : α → Query ι ρ ε β} (first : q.Refines stuck p)
    (rest : ∀ a, (g a).Refines stuck (f a)) : (q >>= g).Refines stuck (p >>= f) := by
  intro store ended
  have started : p.outcome store ≠ .error stuck := by
    intro failed
    apply ended
    rw [outcome_bind,failed]
    rfl
  obtain ⟨same,questions⟩ := first store started
  cases answered : p.outcome store with
  | error e =>
    rw [outcome_bind,outcome_bind,asked_bind_error answered,asked_bind_error (same.trans answered),same,answered]
    exact ⟨rfl,questions⟩
  | ok a =>
    have more : (f a).outcome store ≠ .error stuck := by
      rw [outcome_bind,answered] at ended
      exact ended
    obtain ⟨same',questions'⟩ := rest a store more
    rw [outcome_bind,outcome_bind,asked_bind_ok answered,asked_bind_ok (same.trans answered),same,answered,questions,questions']
    exact ⟨same',rfl⟩

theorem Refines.answered {p q : Query ι ρ ε α} (refines : q.Refines stuck p) {store : ι → ρ} {a : α}
    (done : p.outcome store = .ok a) : q.outcome store = .ok a := by
  rw [(refines store (by rw [done]; exact fun same => nomatch same)).1,done]

end Refines

section Steps
variable {σ ω : Type} (act : σ → ι → ω → σ × ρ)

/-- A run on a store that changes. Each question has an ending, which the surroundings choose; a program that is left
without one stops there. -/
def steps : Query ι ρ ε α → List ω → σ → σ × Option (Except ε α)
  | answer a, _, s => (s,some (.ok a))
  | fail e, _, s => (s,some (.error e))
  | ask _ _, [], s => (s,none)
  | ask i next, ending :: endings, s => (next (act s i ending).2).steps endings (act s i ending).1

variable {act}

/-- What every question keeps is kept by a run, whatever its endings. -/
theorem steps_invariant {holds : σ → Prop} (kept : ∀ s i ending, holds s → holds (act s i ending).1) (p : Query ι ρ ε α)
    (endings : List ω) {s : σ} (start : holds s) : holds (p.steps act endings s).1 := by
  induction p generalizing endings s with
  | answer a => exact start
  | fail e => exact start
  | ask i next ih =>
    cases endings with
    | nil => exact start
    | cons ending endings => exact ih _ _ (kept s i ending start)

end Steps

section Always

/-- Whatever the replies are, a condition holds of the answer. -/
def Always (post : α → Prop) : Query ι ρ ε α → Prop
  | answer a => post a
  | fail _ => True
  | ask _ next => ∀ reply, (next reply).Always post

theorem Always.trivial : ∀ p : Query ι ρ ε α, p.Always fun _ => True
  | answer _ => True.intro
  | fail _ => True.intro
  | ask _ next => fun reply => Always.trivial (next reply)

theorem Always.bind {p : Query ι ρ ε α} {f : α → Query ι ρ ε β} {mid : α → Prop} {post : β → Prop} (first : p.Always mid)
    (next : ∀ a, mid a → (f a).Always post) : (p >>= f).Always post := by
  change (p.bind f).Always post
  induction p with
  | answer a => exact next a first
  | fail e => exact True.intro
  | ask i next' ih => exact fun reply => ih reply (first reply)

theorem Always.mono {p : Query ι ρ ε α} {post post' : α → Prop} (always : p.Always post) (weaken : ∀ a, post a → post' a) :
    p.Always post' := by
  induction p with
  | answer a => exact weaken a always
  | fail e => exact True.intro
  | ask i next ih => exact fun reply => ih reply (always reply)

theorem Always.steps {σ ω : Type} {act : σ → ι → ω → σ × ρ} {p : Query ι ρ ε α} {post : α → Prop} (always : p.Always post)
    {endings : List ω} {s : σ} {a : α} (ended : (p.steps act endings s).2 = some (.ok a)) : post a := by
  induction p generalizing endings s with
  | answer b =>
    cases ended
    exact always
  | fail e => cases ended
  | ask i next ih =>
    cases endings with
    | nil => cases ended
    | cons ending endings => exact ih _ (always _) ended

end Always

section Preconditions
variable {σ ω : Type} (act : σ → ι → ω → σ × ρ) (may : σ → ι → Option ω → Prop)

/-- Every ending of a run may be, and so may that it stops where it does. -/
def Along : Query ι ρ ε α → List ω → σ → Prop
  | answer _, _, _ => True
  | fail _, _, _ => True
  | ask i _, [], s => may s i none
  | ask i next, ending :: endings, s => may s i (some ending) ∧ (next (act s i ending).2).Along endings (act s i ending).1

instance decidableAlong [∀ s i ending, Decidable (may s i ending)] : ∀ (p : Query ι ρ ε α) endings s, Decidable (p.Along act may endings s)
  | answer _, _, _ => isTrue trivial
  | fail _, _, _ => isTrue trivial
  | ask i _, [], s => inferInstanceAs (Decidable (may s i none))
  | ask i next, ending :: endings, s =>
    have := decidableAlong (next (act s i ending).2) endings (act s i ending).1
    inferInstanceAs (Decidable (may s i (some ending) ∧ (next (act s i ending).2).Along act may endings (act s i ending).1))

/-- What has to hold before a run so that a condition holds where it ends, with an answer, a failure or neither. -/
def Pre : Query ι ρ ε α → (σ → Option (Except ε α) → Prop) → σ → Prop
  | answer a, post, s => post s (some (.ok a))
  | fail e, post, s => post s (some (.error e))
  | ask i next, post, s => (may s i none → post s none) ∧
    ∀ ending, may s i (some ending) → (next (act s i ending).2).Pre post (act s i ending).1

variable {act may}

theorem Pre.steps {p : Query ι ρ ε α} {post : σ → Option (Except ε α) → Prop} {s : σ} {endings : List ω} (pre : p.Pre act may post s)
    (along : p.Along act may endings s) : post (p.steps act endings s).1 (p.steps act endings s).2 := by
  induction p generalizing endings s with
  | answer a => exact pre
  | fail e => exact pre
  | ask i next ih =>
    cases endings with
    | nil => exact pre.1 along
    | cons ending endings => exact ih _ (pre.2 ending along.1) along.2

theorem along_true (p : Query ι ρ ε α) (endings : List ω) (s : σ) : p.Along act (fun _ _ _ => True) endings s := by
  induction p generalizing endings s with
  | answer a => trivial
  | fail e => trivial
  | ask i next ih =>
    cases endings with
    | nil => trivial
    | cons ending endings => exact ⟨trivial,ih _ endings _⟩

theorem Along.and {may' : σ → ι → Option ω → Prop} {p : Query ι ρ ε α} {endings : List ω} {s : σ} (left : p.Along act may endings s)
    (right : p.Along act may' endings s) : p.Along act (fun s i ending => may s i ending ∧ may' s i ending) endings s := by
  induction p generalizing endings s with
  | answer a => trivial
  | fail e => trivial
  | ask i next ih =>
    cases endings with
    | nil => exact ⟨left,right⟩
    | cons ending endings => exact ⟨⟨left.1,right.1⟩,ih _ left.2 right.2⟩

theorem Pre.bind {p : Query ι ρ ε α} {f : α → Query ι ρ ε β} {post : σ → Option (Except ε β) → Prop} {s : σ}
    (first : p.Pre act may (fun s result =>
      match result with
      | some (.ok a) => (f a).Pre act may post s
      | some (.error e) => post s (some (.error e))
      | none => post s none) s) : (p >>= f).Pre act may post s := by
  change (p.bind f).Pre act may post s
  induction p generalizing s with
  | answer a => exact first
  | fail e => exact first
  | ask i next ih => exact ⟨first.1,fun ending allowed => ih _ (first.2 ending allowed)⟩

theorem Pre.mono {p : Query ι ρ ε α} {post post' : σ → Option (Except ε α) → Prop} {s : σ} (pre : p.Pre act may post s)
    (weaken : ∀ s result, post s result → post' s result) : p.Pre act may post' s := by
  induction p generalizing s with
  | answer a => exact weaken _ _ pre
  | fail e => exact weaken _ _ pre
  | ask i next ih => exact ⟨fun allowed => weaken _ _ (pre.1 allowed),fun ending allowed => ih _ (pre.2 ending allowed)⟩

/-- What holds where a run ends, after an answer, a failure or neither. -/
def Upon (post : σ → α → Prop) (failure : σ → ε → Prop) (stopped : σ → Prop) (s : σ) : Option (Except ε α) → Prop
  | some (.ok a) => post s a
  | some (.error e) => failure s e
  | none => stopped s

theorem Pre.andThen {p : Query ι ρ ε α} {f : α → Query ι ρ ε β} {mid : σ → α → Prop} {post : σ → β → Prop} {failure : σ → ε → Prop}
    {stopped : σ → Prop} {s : σ} (first : p.Pre act may (Upon mid failure stopped) s)
    (rest : ∀ s' a, mid s' a → (f a).Pre act may (Upon post failure stopped) s') :
    (p >>= f).Pre act may (Upon post failure stopped) s := by
  refine Pre.bind (first.mono fun s' result holds => ?_)
  cases result with
  | none => exact holds
  | some result =>
    cases result with
    | error e => exact holds
    | ok a => exact rest s' a holds

theorem Upon.imp {post post' : σ → α → Prop} {failure failure' : σ → ε → Prop} {stopped stopped' : σ → Prop} {s : σ}
    {result : Option (Except ε α)} (holds : Upon post failure stopped s result) (answered : ∀ a, post s a → post' s a)
    (failed : ∀ e, failure s e → failure' s e) (left : stopped s → stopped' s) : Upon post' failure' stopped' s result := by
  cases result with
  | none => exact left holds
  | some result =>
    cases result with
    | error e => exact failed e holds
    | ok a => exact answered a holds

theorem Pre.and {p : Query ι ρ ε α} {post post' : σ → Option (Except ε α) → Prop} {s : σ} (left : p.Pre act may post s)
    (right : p.Pre act may post' s) : p.Pre act may (fun s result => post s result ∧ post' s result) s := by
  induction p generalizing s with
  | answer a => exact ⟨left,right⟩
  | fail e => exact ⟨left,right⟩
  | ask i next ih =>
    exact ⟨fun allowed => ⟨left.1 allowed,right.1 allowed⟩,fun ending allowed => ih _ (left.2 ending allowed) (right.2 ending allowed)⟩

end Preconditions

section Ends
variable {may : ι → ρ → Prop}

/-- A program can end so, if every question is answered as it may be. -/
def Ends (may : ι → ρ → Prop) : Query ι ρ ε α → Except ε α → Prop
  | answer a, result => result = .ok a
  | fail e, result => result = .error e
  | ask i next, result => ∃ reply, may i reply ∧ (next reply).Ends may result

@[simp] theorem ends_pure {a b : α} : (pure a : Query ι ρ ε α).Ends may (.ok b) ↔ b = a := Except.ok.injEq _ _ ▸ Iff.rfl

@[simp] theorem ends_fail {e : ε} {b : α} : ¬ (fail e : Query ι ρ ε α).Ends may (.ok b) := nofun

theorem ends_bind {p : Query ι ρ ε α} {f : α → Query ι ρ ε β} {b : β} :
    (p >>= f).Ends may (.ok b) ↔ ∃ a, p.Ends may (.ok a) ∧ (f a).Ends may (.ok b) := by
  change (p.bind f).Ends may (.ok b) ↔ _
  induction p with
  | answer a =>
    constructor
    · intro ends
      exact ⟨a,rfl,ends⟩
    · rintro ⟨a',same,ends⟩
      cases same
      exact ends
  | fail e =>
    constructor
    · intro ends
      exact absurd ends ends_fail
    · rintro ⟨a,ends,_⟩
      exact absurd ends ends_fail
  | ask i next ih =>
    constructor
    · rintro ⟨reply,allowed,ends⟩
      obtain ⟨a,first,rest⟩ := (ih reply).mp ends
      exact ⟨a,⟨reply,allowed,first⟩,rest⟩
    · rintro ⟨a,⟨reply,allowed,first⟩,rest⟩
      exact ⟨reply,allowed,(ih reply).mpr ⟨a,first,rest⟩⟩

theorem Always.ends {p : Query ι ρ ε α} {post : α → Prop} (always : p.Always post) {a : α} (ends : p.Ends may (.ok a)) : post a := by
  induction p with
  | answer b =>
    cases ends
    exact always
  | fail e => exact absurd ends ends_fail
  | ask i next ih =>
    obtain ⟨reply,_,rest⟩ := ends
    exact ih reply (always reply) rest

section Avoids
variable {bad : ε → Prop}

/-- No run fails so. -/
def Avoids (may : ι → ρ → Prop) (bad : ε → Prop) (p : Query ι ρ ε α) : Prop := ∀ e, bad e → ¬ p.Ends may (.error e)

theorem avoids_pure {a : α} : (pure a : Query ι ρ ε α).Avoids may bad := fun _ _ => nofun

theorem avoids_fail {e : ε} (other : ¬ bad e) : (fail e : Query ι ρ ε α).Avoids may bad := by
  rintro e' wrong ⟨⟩
  exact other wrong

theorem Avoids.ask {i : ι} {next : ρ → Query ι ρ ε α} (rest : ∀ reply, may i reply → (next reply).Avoids may bad) :
    (ask i next).Avoids may bad := by
  rintro e wrong ⟨reply,allowed,ends⟩
  exact rest reply allowed e wrong ends

theorem Avoids.bind {p : Query ι ρ ε α} {f : α → Query ι ρ ε β} (first : p.Avoids may bad)
    (rest : ∀ a, p.Ends may (.ok a) → (f a).Avoids may bad) : (p >>= f).Avoids may bad := by
  change (p.bind f).Avoids may bad
  induction p with
  | answer a => exact rest a rfl
  | fail e =>
    rintro e' wrong ⟨⟩
    exact first _ wrong rfl
  | ask i next ih =>
    refine .ask fun reply allowed => ih reply (fun e wrong ends => ?_) fun a ends => ?_
    · exact first e wrong ⟨reply,allowed,ends⟩
    · exact rest a ⟨reply,allowed,ends⟩

end Avoids

end Ends

section Within
variable {σ ω : Type} {act : σ → ι → ω → σ × ρ} {may : ι → ω → Prop} {inv : σ → Prop} {post : α → Prop} {failed : ε → Prop}

/-- Between two questions others may do to the store what they will, as long as they keep an invariant, and so does the
program; it ends as it should, after that many questions at most. -/
def Within (act : σ → ι → ω → σ × ρ) (may : ι → ω → Prop) (inv : σ → Prop) (post : α → Prop) (failed : ε → Prop) :
    Query ι ρ ε α → Nat → Prop
  | answer a, _ => post a
  | fail e, _ => failed e
  | ask _ _, 0 => False
  | ask i next, n + 1 => ∀ s ending, inv s → may i ending →
    inv (act s i ending).1 ∧ (next (act s i ending).2).Within act may inv post failed n

theorem Within.mono {p : Query ι ρ ε α} {n m : Nat} {post' : α → Prop} (within : p.Within act may inv post failed n) (more : n ≤ m)
    (weaken : ∀ a, post a → post' a) : p.Within act may inv post' failed m := by
  induction p generalizing n m with
  | answer a => exact weaken a within
  | fail e => exact within
  | ask i next ih =>
    cases n with
    | zero => exact within.elim
    | succ n =>
      cases m with
      | zero => omega
      | succ m =>
        intro s ending holds allowed
        obtain ⟨kept,rest⟩ := within s ending holds allowed
        exact ⟨kept,ih _ rest (by omega)⟩

theorem Within.bind {p : Query ι ρ ε α} {f : α → Query ι ρ ε β} {n m : Nat} {post' : β → Prop} (first : p.Within act may inv post failed n)
    (rest : ∀ a, post a → (f a).Within act may inv post' failed m) : (p >>= f).Within act may inv post' failed (n + m) := by
  change (p.bind f).Within act may inv post' failed (n + m)
  induction p generalizing n with
  | answer a => exact (rest a (by cases n <;> exact first)).mono (by omega) fun _ holds => holds
  | fail e => exact first
  | ask i next ih =>
    cases n with
    | zero => exact first.elim
    | succ n =>
      rw [Nat.add_right_comm]
      intro s ending holds allowed
      obtain ⟨kept,rest⟩ := first s ending holds allowed
      exact ⟨kept,ih _ rest⟩

/-- A run without others ends, if there is an ending for each of its questions. -/
theorem Within.steps {p : Query ι ρ ε α} {n : Nat} (within : p.Within act may inv post failed n) {s : σ} {endings : List ω} (holds : inv s)
    (along : p.Along act (fun _ i ending => ∀ e ∈ ending, may i e) endings s) :
    inv (p.steps act endings s).1 ∧ (n ≤ endings.length → ∃ result, (p.steps act endings s).2 = some result ∧
      (∀ a, result = .ok a → post a) ∧ ∀ e, result = .error e → failed e) := by
  induction p generalizing n endings s with
  | answer a =>
    refine ⟨holds,fun _ => ⟨_,rfl,?_,?_⟩⟩
    · rintro _ ⟨⟩
      exact within
    · rintro _ ⟨⟩
  | fail e =>
    refine ⟨holds,fun _ => ⟨_,rfl,?_,?_⟩⟩
    · rintro _ ⟨⟩
    · rintro _ ⟨⟩
      exact within
  | ask i next ih =>
    cases n with
    | zero => exact within.elim
    | succ n =>
      cases endings with
      | nil => exact ⟨holds,fun enough => absurd enough (by simp)⟩
      | cons ending endings =>
        obtain ⟨kept,rest⟩ := within s ending holds (along.1 ending rfl)
        obtain ⟨kept,ends⟩ := ih _ rest kept along.2
        exact ⟨kept,fun enough => ends (Nat.le_of_succ_le_succ enough)⟩

end Within

end Query

end Vbe.Library
