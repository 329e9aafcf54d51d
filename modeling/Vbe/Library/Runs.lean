import Mathlib.Logic.Basic

/-! Runs of a machine whose steps are determined by labels and may be refused.
Everything that happens in a run, the choices of its environment included, is in
the labels, so a theorem about all label lists is a theorem about all orders of
steps and all environments. -/
namespace Vbe.Library.Runs

variable {σ α : Type} (step : σ → α → Option σ)

def run : σ → List α → Option σ
  | s, [] => some s
  | s, l :: rest =>
    match step s l with
    | none => none
    | some t => run t rest

/-- Every step taken from `s` along the labels meets a condition on the state
before it and its label. -/
def Meets (condition : σ → α → Prop) : σ → List α → Prop
  | _, [] => True
  | s, l :: rest => condition s l ∧ ∀ t, step s l = some t → Meets condition t rest

instance decidableMeets (condition : σ → α → Prop) [∀ s l, Decidable (condition s l)] :
    ∀ s labels, Decidable (Meets step condition s labels)
  | _, [] => inferInstanceAs (Decidable True)
  | s, l :: rest =>
    match taken : step s l with
    | none => decidable_of_iff (condition s l) (by simp [Meets,taken])
    | some t =>
      have := decidableMeets condition t rest
      decidable_of_iff (condition s l ∧ Meets step condition t rest) (by simp [Meets,taken])

variable {step}

theorem run_cons {s t : σ} {l : α} {rest : List α} (taken : step s l = some t) :
    run step s (l :: rest) = run step t rest := by
  simp [run,taken]

/-- What holds at the start and is kept by every step that meets the condition
holds at the end of every run whose steps meet it. -/
theorem invariant {condition : σ → α → Prop} {holds : σ → Prop}
    (kept : ∀ s l t, holds s → condition s l → step s l = some t → holds t)
    {s t : σ} {labels : List α} (start : holds s) (meets : Meets step condition s labels)
    (reached : run step s labels = some t) : holds t := by
  induction labels generalizing s with
  | nil =>
    cases Option.some.inj reached
    exact start
  | cons l rest ih =>
    cases taken : step s l with
    | none => simp [run,taken] at reached
    | some u =>
      rw [run_cons taken] at reached
      exact ih (kept s l u start meets.1 taken) (meets.2 u taken) reached

theorem meets_true (s : σ) (labels : List α) : Meets step (fun _ _ => True) s labels := by
  induction labels generalizing s with
  | nil => trivial
  | cons l rest ih => exact ⟨trivial,fun t _ => ih t⟩

theorem run_append {s : σ} {before after : List α} :
    run step s (before ++ after) = (run step s before).bind fun t => run step t after := by
  induction before generalizing s with
  | nil => rfl
  | cons l rest ih =>
    simp only [List.cons_append,run]
    cases step s l with
    | none => rfl
    | some t => exact ih

theorem Meets.cons {condition : σ → α → Prop} {s t : σ} {l : α} {rest : List α} (met : condition s l)
    (taken : step s l = some t) (meets : Meets step condition t rest) : Meets step condition s (l :: rest) :=
  ⟨met,fun _ same => Option.some.inj (taken.symm.trans same) ▸ meets⟩

theorem Meets.imp {condition weaker : σ → α → Prop} (implies : ∀ s l, condition s l → weaker s l)
    {s : σ} {labels : List α} (meets : Meets step condition s labels) : Meets step weaker s labels := by
  induction labels generalizing s with
  | nil => trivial
  | cons l rest ih => exact ⟨implies s l meets.1,fun t taken => ih (meets.2 t taken)⟩

theorem Meets.and {condition other : σ → α → Prop} {s : σ} {labels : List α} (left : Meets step condition s labels)
    (right : Meets step other s labels) : Meets step (fun s l => condition s l ∧ other s l) s labels := by
  induction labels generalizing s with
  | nil => trivial
  | cons l rest ih => exact ⟨⟨left.1,right.1⟩,fun t taken => ih (left.2 t taken) (right.2 t taken)⟩

theorem Meets.and_labels {condition : σ → α → Prop} {holds : α → Prop} {s : σ} {labels : List α}
    (meets : Meets step condition s labels) (all : ∀ l ∈ labels, holds l) :
    Meets step (fun s l => holds l ∧ condition s l) s labels := by
  induction labels generalizing s with
  | nil => trivial
  | cons l rest ih =>
    exact ⟨⟨all l (by simp),meets.1⟩,fun t taken => ih (meets.2 t taken) fun k member => all k (by simp [member])⟩

/-- Every label of a run was taken in some state that met the condition with it. -/
theorem Meets.of_mem {condition : σ → α → Prop} {s t : σ} {labels : List α} (meets : Meets step condition s labels)
    (reached : run step s labels = some t) {l : α} (member : l ∈ labels) : ∃ u, condition u l := by
  induction labels generalizing s with
  | nil => contradiction
  | cons k rest ih =>
    rcases List.mem_cons.mp member with rfl | later
    · exact ⟨s,meets.1⟩
    · cases taken : step s k with
      | none => simp [run,taken] at reached
      | some u =>
        rw [run_cons taken] at reached
        exact ih (meets.2 u taken) reached later

theorem Meets.append {condition : σ → α → Prop} {s t : σ} {before after : List α}
    (meets : Meets step condition s (before ++ after)) (reached : run step s before = some t) :
    Meets step condition s before ∧ Meets step condition t after := by
  induction before generalizing s with
  | nil =>
    cases Option.some.inj reached
    exact ⟨trivial,meets⟩
  | cons l rest ih =>
    cases taken : step s l with
    | none => simp [run,taken] at reached
    | some u =>
      rw [run_cons taken] at reached
      obtain ⟨first,last⟩ := ih (meets.2 u taken) reached
      exact ⟨⟨meets.1,fun v same => Option.some.inj (taken.symm.trans same) ▸ first⟩,last⟩

theorem Meets.concat {condition : σ → α → Prop} {s t : σ} {before after : List α} (first : Meets step condition s before)
    (reached : run step s before = some t) (last : Meets step condition t after) : Meets step condition s (before ++ after) := by
  induction before generalizing s with
  | nil =>
    cases Option.some.inj reached
    exact last
  | cons l rest ih =>
    refine ⟨first.1,fun u taken => ih (first.2 u taken) ?_⟩
    rwa [run_cons taken] at reached

/-- A run is no longer than what its steps use up. -/
theorem length_le {holds : σ → Prop} (weight : σ → Nat) (kept : ∀ s l t, holds s → step s l = some t → holds t)
    (lowers : ∀ s l t, holds s → step s l = some t → weight t < weight s) {s t : σ} {labels : List α} (start : holds s)
    (reached : run step s labels = some t) : labels.length + weight t ≤ weight s := by
  induction labels generalizing s with
  | nil =>
    cases Option.some.inj reached
    exact Nat.le_of_eq (Nat.zero_add _)
  | cons l rest ih =>
    cases taken : step s l with
    | none => simp [run,taken] at reached
    | some u =>
      rw [run_cons taken] at reached
      have after := ih (kept s l u start taken) reached
      have lower := lowers s l u start taken
      rw [List.length_cons]
      omega

end Vbe.Library.Runs
