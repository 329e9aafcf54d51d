import Mathlib.Data.List.Forall2

/-! Loops over a list whose body may fail: the loop succeeds when every round
does and otherwise ends with the error of some round. -/
namespace Vbe.Library.Results

variable {ε α β : Type} {f : α → Except ε β}

/-- A step that succeeds hands on its result. -/
theorem ok_bind (a : α) (f : α → Except ε β) : (Except.ok a >>= f) = f a := rfl

theorem bind_ok {x : Except ε α} {g : α → Except ε β} {b : β} : (x >>= g) = .ok b ↔ ∃ a, x = .ok a ∧ g a = .ok b := by
  cases x with
  | error e => simp [Bind.bind,Except.bind]
  | ok a => simp [Bind.bind,Except.bind]

theorem mapM_ok {l : List α} {g : α → β} (all : ∀ a ∈ l, f a = .ok (g a)) :
    l.mapM f = .ok (l.map g) := by
  induction l with
  | nil => rfl
  | cons a l ih =>
    rw [List.mapM_cons,all a (by simp),ih fun b member => all b (by simp [member])]
    rfl

theorem mapM_error {l : List α} (failing : ∃ a ∈ l, ∃ e, f a = .error e) :
    ∃ a ∈ l, ∃ e, f a = .error e ∧ l.mapM f = .error e := by
  induction l with
  | nil => simp at failing
  | cons a l ih =>
    cases head : f a with
    | error e => exact ⟨a,by simp,e,head,by rw [List.mapM_cons,head]; rfl⟩
    | ok b =>
      obtain ⟨c,member,e,wrong⟩ := failing
      have inside : c ∈ l := by
        rcases List.mem_cons.mp member with rfl | inside
        · rw [head] at wrong; contradiction
        · exact inside
      obtain ⟨d,there,e,fails,whole⟩ := ih ⟨c,inside,e,wrong⟩
      exact ⟨d,by simp [there],e,fails,by rw [List.mapM_cons,head,whole]; rfl⟩

/-- A loop over a state whose rounds fail with one error only, and which otherwise tell something about their elements. -/
theorem foldlM_cases {σ : Type} {step : σ → α → Except ε σ} {e : ε} {P : α → Prop} {l : List α}
    (rounds : ∀ a ∈ l, ∀ s, step s a = .error e ∨ P a ∧ ∃ s', step s a = .ok s') (s : σ) :
    l.foldlM step s = .error e ∨ (∀ a ∈ l, P a) ∧ ∃ s', l.foldlM step s = .ok s' := by
  induction l generalizing s with
  | nil => exact .inr ⟨by simp,s,rfl⟩
  | cons a l ih =>
    rw [List.foldlM_cons]
    rcases rounds a (by simp) s with failed | ⟨head,s',run⟩
    · rw [failed]
      exact .inl rfl
    · rw [run,ok_bind]
      rcases ih (fun b member => rounds b (by simp [member])) s' with failed | ⟨tail,s'',rest⟩
      · exact .inl failed
      · exact .inr ⟨List.forall_mem_cons.mpr ⟨head,tail⟩,s'',rest⟩

/-- What a successful loop returns comes from its rounds. -/
theorem mapM_mem {l : List α} {results : List β} (done : l.mapM f = .ok results) :
    ∀ b ∈ results, ∃ a ∈ l, f a = .ok b := by
  induction l generalizing results with
  | nil =>
    cases Except.ok.inj done
    simp
  | cons a l ih =>
    rw [List.mapM_cons] at done
    cases head : f a with
    | error e =>
      rw [head] at done
      contradiction
    | ok b =>
      cases tail : l.mapM f with
      | error e =>
        rw [head,tail] at done
        contradiction
      | ok rest =>
        rw [head,tail] at done
        cases Except.ok.inj done
        intro c member
        rcases List.mem_cons.mp member with rfl | later
        · exact ⟨a,by simp,head⟩
        · obtain ⟨d,inside,own⟩ := ih tail c later
          exact ⟨d,by simp [inside],own⟩

/-- Each round of a successful loop is among what it returns. -/
theorem mapM_rounds {l : List α} {results : List β} (done : l.mapM f = .ok results) :
    ∀ a ∈ l, ∃ b ∈ results, f a = .ok b := by
  induction l generalizing results with
  | nil => simp
  | cons a l ih =>
    rw [List.mapM_cons] at done
    cases head : f a with
    | error e =>
      rw [head] at done
      contradiction
    | ok b =>
      cases tail : l.mapM f with
      | error e =>
        rw [head,tail] at done
        contradiction
      | ok rest =>
        rw [head,tail] at done
        cases Except.ok.inj done
        intro c member
        rcases List.mem_cons.mp member with rfl | later
        · exact ⟨b,by simp,head⟩
        · obtain ⟨d,inside,own⟩ := ih tail c later
          exact ⟨d,by simp [inside],own⟩

section Optional
variable {α β : Type} {f g : α → Option β} {l : List α} {results : List β}

theorem mapM_option_congr (same : ∀ a ∈ l, f a = g a) : l.mapM f = l.mapM g := by
  induction l with
  | nil => rfl
  | cons a l ih =>
    rw [List.mapM_cons,List.mapM_cons,same a List.mem_cons_self,ih fun b member => same b (List.mem_cons_of_mem _ member)]

/-- A loop without failures has the result of each round. -/
theorem mapM_option_some (done : l.mapM f = some results) : List.Forall₂ (fun a b => f a = some b) l results := by
  induction l generalizing results with
  | nil =>
    cases done
    exact .nil
  | cons a l ih =>
    rw [List.mapM_cons] at done
    obtain ⟨b,first,rest⟩ := Option.bind_eq_some_iff.mp done
    obtain ⟨bs,others,same⟩ := Option.bind_eq_some_iff.mp rest
    cases same
    exact .cons first (ih others)

theorem mapM_option_mem (done : l.mapM f = some results) {b : β} (member : b ∈ results) : ∃ a ∈ l, f a = some b := by
  have each := mapM_option_some done
  clear done
  induction each with
  | nil => contradiction
  | @cons a b' l results first _ ih =>
    rcases List.mem_cons.mp member with rfl | later
    · exact ⟨a,List.mem_cons_self,first⟩
    · obtain ⟨a',inside,round⟩ := ih later
      exact ⟨a',List.mem_cons_of_mem _ inside,round⟩

/-- Where each result tells which round it is from, the results tell the list. -/
theorem mapM_option_map (done : l.mapM f = some results) {key : β → α} (own : ∀ a b, f a = some b → key b = a) :
    results.map key = l := by
  have each := mapM_option_some done
  clear done
  induction each with
  | nil => rfl
  | cons first _ ih => rw [List.map_cons,own _ _ first,ih]

end Optional

/-- A fold that has a result keeps it when the rounds have more results. -/
theorem foldlM_option_mono {α σ : Type} {f g : σ → α → Option σ} (more : ∀ s a t, f s a = some t → g s a = some t)
    {l : List α} {s t : σ} (done : l.foldlM f s = some t) : l.foldlM g s = some t := by
  induction l generalizing s with
  | nil => exact done
  | cons a l ih =>
    rw [List.foldlM_cons,Option.bind_eq_bind,Option.bind_eq_some_iff] at done
    obtain ⟨u,first,rest⟩ := done
    rw [List.foldlM_cons,more s a u first]
    exact ih rest

end Vbe.Library.Results
