import Mathlib.Data.List.Perm.Basic

/-! Ordered forests whose inner nodes and leaves carry labels, and what does not depend on the order. -/
namespace Vbe.Library

inductive Forest (ν ℓ : Type)
  | nil
  | leaf (l : ℓ) (rest : Forest ν ℓ)
  | node (n : ν) (children rest : Forest ν ℓ)

namespace Forest
variable {ν ℓ : Type}

/-- The leaves that are below no node. -/
def tops : Forest ν ℓ → List ℓ
  | nil => []
  | leaf l rest => l :: rest.tops
  | node _ _ rest => rest.tops

/-- The nodes that are below no node. -/
def roots : Forest ν ℓ → List ν
  | nil => []
  | leaf _ rest => rest.roots
  | node n _ rest => n :: rest.roots

def leaves : Forest ν ℓ → List ℓ
  | nil => []
  | leaf l rest => l :: rest.leaves
  | node _ children rest => children.leaves ++ rest.leaves

/-- All nodes with what is below them. -/
def nodes : Forest ν ℓ → List (ν × Forest ν ℓ)
  | nil => []
  | leaf _ rest => rest.nodes
  | node n children rest => (n,children) :: (children.nodes ++ rest.nodes)

def append : Forest ν ℓ → Forest ν ℓ → Forest ν ℓ
  | nil, g => g
  | leaf l rest, g => leaf l (rest.append g)
  | node n children rest, g => node n children (rest.append g)

section Counting
variable {f : Forest ν ℓ}

theorem tops_sublist (f : Forest ν ℓ) : f.tops.Sublist f.leaves := by
  induction f with
  | nil => exact .slnil
  | leaf l rest ih => exact .cons_cons l ih
  | node n children rest _ ih => exact ih.trans (List.sublist_append_right _ _)

theorem leaves_sublist {x : ν × Forest ν ℓ} (member : x ∈ f.nodes) : x.2.leaves.Sublist f.leaves := by
  induction f with
  | nil => exact absurd member List.not_mem_nil
  | leaf l rest ih => exact (ih member).cons l
  | node n children rest below ih =>
    rcases List.mem_cons.mp member with rfl | member
    · exact List.sublist_append_left _ _
    rcases List.mem_append.mp member with inside | later
    · exact (below inside).trans (List.sublist_append_left _ _)
    · exact (ih later).trans (List.sublist_append_right _ _)

/-- As many leaves on top as in all: none is below a node. -/
theorem countP_leaves (p : ℓ → Bool) (f : Forest ν ℓ) :
    f.tops.countP p = f.leaves.countP p ↔ ∀ x ∈ f.nodes, ∀ l ∈ x.2.leaves, p l = false := by
  induction f with
  | nil => simp [leaves,tops,nodes]
  | leaf l rest ih => simpa [leaves,tops,nodes,List.countP_cons] using ih
  | node n children rest below ih =>
    have least : rest.tops.countP p ≤ rest.leaves.countP p := rest.tops_sublist.countP_le
    simp only [leaves,tops,nodes,List.countP_append,List.forall_mem_cons,List.forall_mem_append,← ih]
    constructor
    · intro count
      have none : ∀ l ∈ children.leaves, p l = false := by
        have zero : children.leaves.countP p = 0 := by omega
        simpa [List.countP_eq_zero] using zero
      exact ⟨none,fun x inside l member => none l ((leaves_sublist inside).subset member),by omega⟩
    · rintro ⟨none,_,count⟩
      have zero : children.leaves.countP p = 0 := by simpa [List.countP_eq_zero] using none
      omega

end Counting

/-- The same with another order of siblings. -/
inductive Reordered : Forest ν ℓ → Forest ν ℓ → Prop
  | nil : Reordered nil nil
  | leaf (l : ℓ) {f g} (rest : Reordered f g) : Reordered (leaf l f) (leaf l g)
  | node (n : ν) {c d f g} (children : Reordered c d) (rest : Reordered f g) : Reordered (node n c f) (node n d g)
  | leaves (l m : ℓ) (f) : Reordered (.leaf l (.leaf m f)) (.leaf m (.leaf l f))
  | nodes (n m : ν) (c d f) : Reordered (.node n c (.node m d f)) (.node m d (.node n c f))
  | lower (n : ν) (l : ℓ) (c f) : Reordered (.node n c (.leaf l f)) (.leaf l (.node n c f))
  | raise (n : ν) (l : ℓ) (c f) : Reordered (.leaf l (.node n c f)) (.node n c (.leaf l f))
  | trans {f g h} (first : Reordered f g) (second : Reordered g h) : Reordered f h

namespace Reordered
variable {f g : Forest ν ℓ}

theorem tops_perm (reordered : Reordered f g) : f.tops.Perm g.tops := by
  induction reordered with
  | nil => exact .nil
  | leaf l _ ih => exact .cons l ih
  | node n _ _ _ ih => exact ih
  | leaves l m f => exact .swap m l f.tops
  | nodes n m c d f => exact .refl f.tops
  | lower n l c f => exact .refl (l :: f.tops)
  | raise n l c f => exact .refl (l :: f.tops)
  | trans _ _ first second => exact first.trans second

theorem roots_perm (reordered : Reordered f g) : f.roots.Perm g.roots := by
  induction reordered with
  | nil => exact .nil
  | leaf l _ ih => exact ih
  | node n _ _ _ ih => exact .cons n ih
  | leaves l m f => exact .refl f.roots
  | nodes n m c d f => exact .swap m n f.roots
  | lower n l c f => exact .refl (n :: f.roots)
  | raise n l c f => exact .refl (n :: f.roots)
  | trans _ _ first second => exact first.trans second

theorem leaves_perm (reordered : Reordered f g) : f.leaves.Perm g.leaves := by
  induction reordered with
  | nil => exact .nil
  | leaf l _ ih => exact .cons l ih
  | node n _ _ below ih => exact below.append ih
  | leaves l m f => exact .swap m l f.leaves
  | nodes n m c d f =>
    simp only [Forest.leaves,← List.append_assoc]
    exact List.perm_append_comm.append_right f.leaves
  | lower n l c f => exact List.perm_middle
  | raise n l c f => exact List.perm_middle.symm
  | trans _ _ first second => exact first.trans second

theorem nodes_perm {β : Type} (value : ν × Forest ν ℓ → β) (same : ∀ n c d, Reordered c d → value (n,c) = value (n,d))
    (reordered : Reordered f g) : (f.nodes.map value).Perm (g.nodes.map value) := by
  induction reordered with
  | nil => exact .nil
  | leaf l _ ih => exact ih
  | node n children _ below ih =>
    simp only [Forest.nodes,List.map_cons,List.map_append]
    rw [same n _ _ children]
    exact .cons _ (below.append ih)
  | leaves l m f => exact .refl _
  | nodes n m c d f =>
    simp only [Forest.nodes,List.map_cons,List.map_append]
    refine .trans (.cons _ List.perm_middle) (.trans (.swap _ _ _) (.cons _ ?_))
    refine .trans (.cons _ ?_) List.perm_middle.symm
    simp only [← List.append_assoc]
    exact List.perm_append_comm.append_right _
  | lower n l c f => exact .refl _
  | raise n l c f => exact .refl _
  | trans _ _ first second => exact first.trans second

end Reordered

end Forest

end Vbe.Library
