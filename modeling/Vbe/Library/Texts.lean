import Mathlib.Data.Countable.Basic
import Mathlib.Data.List.Basic
import Mathlib.Logic.Equiv.Basic
import Mathlib.Logic.Equiv.List
import Mathlib.Tactic.DeriveCountable

/-! Texts of values. A countable type has texts that its values can be read from, and a value of
choice has the empty one. -/
namespace Vbe.Library.Texts

instance countableUInt8 : Countable UInt8 := Function.Injective.countable (f := UInt8.toNat) fun _ _ same => UInt8.toNat_inj.mp same

instance countableChar : Countable Char := Function.Injective.countable (f := Char.toNat) fun _ _ same => Char.toNat_inj.mp same

instance countableString : Countable String := Function.Injective.countable (f := String.toList) fun _ _ same => String.toList_inj.mp same

variable {α : Type}

noncomputable section
variable [Countable α]

def number (a : α) : Nat := (Countable.exists_injective_nat α).choose a

theorem number_injective : Function.Injective (number (α := α)) := (Countable.exists_injective_nat α).choose_spec

/-- A text for each value, the empty one for `least`. -/
def marshal (least a : α) : List UInt8 := List.replicate (Equiv.swap (number least) 0 (number a)) 0

theorem marshal_least (least : α) : marshal least least = [] := by
  rw [marshal,Equiv.swap_apply_left,List.replicate_zero]

theorem marshal_injective (least : α) : Function.Injective (marshal least) := by
  intro a b same
  have lengths := congrArg List.length same
  rw [marshal,marshal,List.length_replicate,List.length_replicate] at lengths
  exact number_injective ((Equiv.swap _ _).injective lengths)

open Classical in
def unmarshal (least : α) (text : List UInt8) : Option α :=
  if known : ∃ a, marshal least a = text then some known.choose else none

@[simp] theorem unmarshal_marshal (least a : α) : unmarshal least (marshal least a) = some a := by
  have known : ∃ b, marshal least b = marshal least a := ⟨a,rfl⟩
  rw [unmarshal,dif_pos known,marshal_injective least known.choose_spec]

end

end Vbe.Library.Texts
