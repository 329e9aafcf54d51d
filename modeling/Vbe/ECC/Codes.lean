import Vbe.ECC.ReedSolomonCrc
import Vbe.Library.LagrangeCodes
import Mathlib.Data.List.ReduceOption
import Mathlib.FieldTheory.Finite.GaloisField

/-! The codes exist: columns of bytes as values over the field of 256 elements, at one point for
each shard. -/
namespace Vbe.ECC
open Vbe.Library.LagrangeCodes

section Field

abbrev F256 : Type := GaloisField 2 8

def byteFin : UInt8 ≃ Fin 256 := ⟨UInt8.toFin,UInt8.ofFin,fun _ => rfl,fun _ => rfl⟩

theorem fin_equiv_exists : Nonempty (Fin 256 ≃ F256) := by
  apply Finite.card_eq.mp
  have field : Nat.card F256 = 2 ^ 8 := GaloisField.card 2 8 (by decide)
  rw [field,Nat.card_fin]
  rfl

noncomputable def byteEquiv : UInt8 ≃ F256 := byteFin.trans (Classical.choice fin_equiv_exists)

noncomputable def point (i : ℕ) : F256 := byteEquiv (UInt8.ofNat i)

theorem point_injOn : Set.InjOn point (Finset.range 256) := by
  intro i inside j inside' same
  simp only [Finset.coe_range,Set.mem_Iio] at inside inside'
  have bytes := congrArg UInt8.toNat (byteEquiv.injective same)
  rwa [UInt8.toNat_ofNat',UInt8.toNat_ofNat',Nat.mod_eq_of_lt inside,Nat.mod_eq_of_lt inside'] at bytes

end Field

section Code

/-- One column of the shards; a column that does not exist reads as zeroes. -/
noncomputable def column (shards : List Shard) (col i : ℕ) : F256 := byteEquiv ((shards[i]?.getD []).getD col 0)

noncomputable def parityShard (d : ℕ) (data : List Shard) (j : ℕ) : Shard :=
  (List.range (data.headD []).length).map fun col => byteEquiv.symm (extend point d (column data col) (d + j))

def knownShards (shards : List (Option Shard)) : Finset ℕ :=
  ((List.range shards.length).filter fun i => (shards.getD i none).isSome).toFinset

noncomputable def recoverShard (shards : List (Option Shard)) (i : ℕ) : Shard :=
  (List.range ((shards.reduceOption.headD []).length)).map fun col =>
    byteEquiv.symm (recover point (knownShards shards) (column (shards.map fun shard => shard.getD []) col) i)

noncomputable def interpolationCode : ReedSolomon where
  Encoder := ℕ × ℕ
  New := fun d p => if 0 < d ∧ d + p ≤ 256 then some (d,p) else none
  Encode := fun enc data => some ((List.range enc.2).map (parityShard enc.1 data))
  ReconstructData := fun enc shards =>
    if enc.1 ≤ shards.countP Option.isSome then
      some ((List.range enc.1).map (fun i => some (recoverShard shards i)) ++ shards.drop enc.1)
    else none

theorem card_knownShards (shards : List (Option Shard)) : (knownShards shards).card = shards.countP Option.isSome := by
  have all : shards = (List.range shards.length).map fun i => shards.getD i none := by
    apply List.ext_getElem
    · simp
    · intro i inside _
      simp [inside]
  have nodup : ((List.range shards.length).filter fun i => (shards.getD i none).isSome).Nodup := List.nodup_range.filter _
  rw [knownShards,List.toFinset_card_of_nodup nodup,← List.countP_eq_length_filter]
  nth_rewrite 3 [all]
  rw [List.countP_map]
  rfl

section Parity
variable {d p size : ℕ} {data : List Shard}

theorem length_parityShard (positive : 0 < d) (count : data.length = d) (uniform : ∀ shard ∈ data, shard.length = size) (j : ℕ) :
    (parityShard d data j).length = size := by
  cases data with
  | nil => simp at count; omega
  | cons first data =>
    rw [parityShard,List.length_map,List.length_range]
    exact uniform first (by simp)

/-- Every shard of a code word holds the values of the polynomials of the data, column by column. -/
theorem codeword_column (fits : d + p ≤ 256) (positive : 0 < d) (count : data.length = d)
    (uniform : ∀ shard ∈ data, shard.length = size) {col j : ℕ} (inside : col < size) (bound : j < d + p) :
    column (data ++ (List.range p).map (parityShard d data)) col j = extend point d (column data col) j := by
  have distinct := point_injOn
  by_cases first : j < d
  · rw [extend_data distinct (show d ≤ 256 by omega) first,column,column,List.getElem?_append_left (by omega)]
  · obtain ⟨i,rfl⟩ := Nat.exists_eq_add_of_le (show d ≤ j by omega)
    have there : (data ++ (List.range p).map (parityShard d data))[d + i]?.getD [] = parityShard d data i := by
      rw [List.getElem?_append_right (by omega),count,Nat.add_sub_cancel_left,
        List.getElem?_map,List.getElem?_range (by omega)]
      rfl
    have length := length_parityShard positive count uniform i
    have value : (parityShard d data i).getD col 0 = byteEquiv.symm (extend point d (column data col) (d + i)) := by
      have wide : (data.headD []).length = size := by
        rw [parityShard,List.length_map,List.length_range] at length
        exact length
      rw [parityShard,List.getD_eq_getElem?_getD,List.getElem?_map,List.getElem?_range (by omega)]
      rfl
    rw [column,there,value,Equiv.apply_symm_apply]

end Parity

section Recovery
variable {d p size : ℕ} {data : List Shard} {shards : List (Option Shard)}

theorem codeword_uniform (positive : 0 < d) (count : data.length = d) (uniform : ∀ shard ∈ data, shard.length = size) :
    ∀ shard ∈ data ++ (List.range p).map (parityShard d data), shard.length = size := by
  intro shard member
  rcases List.mem_append.mp member with own | parity
  · exact uniform shard own
  · obtain ⟨j,_,rfl⟩ := List.mem_map.mp parity
    exact length_parityShard positive count uniform j

theorem shard_known {whole : List Shard} (seen : List.Forall₂ (fun shard whole => shard = none ∨ shard = some whole) shards whole)
    {j : ℕ} (known : j ∈ knownShards shards) :
    ∃ shard, shards[j]? = some (some shard) ∧ whole[j]? = some shard := by
  obtain ⟨inside,present⟩ := List.mem_filter.mp (List.mem_toFinset.mp known)
  rw [List.mem_range] at inside
  obtain ⟨same,each⟩ := List.forall₂_iff_get.mp seen
  rcases each j inside (same ▸ inside) with missing | own
  · rw [List.get_eq_getElem] at missing
    simp [List.getD_eq_getElem?_getD,inside,missing] at present
  · rw [List.get_eq_getElem,List.get_eq_getElem] at own
    exact ⟨_,by rw [List.getElem?_eq_getElem inside,own],List.getElem?_eq_getElem _⟩

theorem recoverShard_eq (positive : 0 < d) (fits : d + p ≤ 256) (count : data.length = d)
    (uniform : ∀ shard ∈ data, shard.length = size)
    (seen : List.Forall₂ (fun shard whole => shard = none ∨ shard = some whole) shards
      (data ++ (List.range p).map (parityShard d data)))
    (enough : d ≤ shards.countP Option.isSome) {i : ℕ} (inside : i < d) : recoverShard shards i = data[i]?.getD [] := by
  have total : shards.length = d + p := by
    rw [seen.length_eq,List.length_append,count,List.length_map,List.length_range]
  have within : knownShards shards ⊆ Finset.range 256 := by
    intro j known
    obtain ⟨bound,_⟩ := List.mem_filter.mp (List.mem_toFinset.mp known)
    rw [List.mem_range] at bound
    rw [Finset.mem_range]
    omega
  have known : d ≤ (knownShards shards).card := card_knownShards shards ▸ enough
  have wide : (shards.reduceOption.headD []).length = size := by
    obtain ⟨j,member⟩ := Finset.card_pos.mp (Nat.lt_of_lt_of_le positive known)
    obtain ⟨first,there,_⟩ := shard_known seen member
    have some' : first ∈ shards.reduceOption := List.reduceOption_mem_iff.mpr (List.mem_of_getElem? there)
    obtain ⟨head,tail,split⟩ := List.exists_cons_of_ne_nil (List.ne_nil_of_mem some')
    have inside' : some head ∈ shards := List.reduceOption_mem_iff.mp (split ▸ List.mem_cons_self)
    obtain ⟨k,bound,at'⟩ := List.mem_iff_getElem.mp inside'
    have kept : k ∈ knownShards shards := by
      apply List.mem_toFinset.mpr
      apply List.mem_filter.mpr
      rw [List.getD_eq_getElem?_getD,List.getElem?_eq_getElem bound,at']
      exact ⟨List.mem_range.mpr bound,rfl⟩
    obtain ⟨shard,there',whole⟩ := shard_known seen kept
    rw [List.getElem?_eq_getElem bound,at'] at there'
    cases Option.some.inj (Option.some.inj there')
    rw [split]
    exact codeword_uniform positive count uniform head (List.mem_of_getElem? whole)
  have values (col : ℕ) (narrow : col < size) :
      recover point (knownShards shards) (column (shards.map fun shard => shard.getD []) col) i = column data col i := by
    rw [recover_extend (n := 256) point_injOn (by omega) within known,
      extend_data point_injOn (show d ≤ 256 by omega) inside]
    intro j member
    obtain ⟨shard,there,own⟩ := shard_known seen member
    have bound : j < d + p := by
      have := (List.getElem?_eq_some_iff.mp there).1
      omega
    rw [← codeword_column fits positive count uniform narrow bound,column,column,List.getElem?_map,there,own]
    rfl
  have own : (data[i]?.getD []).length = size := by
    apply uniform
    rw [List.getElem?_eq_getElem (by omega)]
    exact List.getElem_mem _
  rw [recoverShard,wide]
  apply List.ext_getElem
  · simp [own]
  · intro col left right
    have narrow : col < size := own ▸ right
    rw [List.getElem_map,List.getElem_range,values col narrow,column,Equiv.symm_apply_apply,List.getD_eq_getElem?_getD,
      List.getElem?_eq_getElem right]
    rfl

end Recovery

theorem New_eq {d p : ℕ} {enc : ℕ × ℕ} (made : interpolationCode.New d p = some enc) : 0 < d ∧ d + p ≤ 256 ∧ enc = (d,p) := by
  have made' : (if 0 < d ∧ d + p ≤ 256 then some (d,p) else none) = some enc := made
  split at made'
  next fits => exact ⟨fits.1,fits.2,(Option.some.inj made').symm⟩
  next => contradiction

theorem interpolationCode_reconstructs : interpolationCode.Reconstructs := by
  constructor
  · intro d p positive fits
    exact ⟨(d,p),if_pos ⟨positive,fits⟩⟩
  · intro d p enc made size data positive count uniform
    obtain ⟨some',_,rfl⟩ := New_eq made
    refine ⟨_,rfl,by simp,fun shard member => ?_⟩
    obtain ⟨j,_,rfl⟩ := List.mem_map.mp member
    exact length_parityShard some' count uniform j
  · intro d p enc made size data parity positive count uniform encoded shards seen enough
    obtain ⟨some',fits,rfl⟩ := New_eq made
    cases Option.some.inj encoded
    have recovered : (List.range d).map (fun i => some (recoverShard shards i)) = data.map some := by
      apply List.ext_getElem
      · simp [count]
      · intro i left right
        have inside : i < d := by simpa using left
        rw [List.getElem_map,List.getElem_range,recoverShard_eq some' fits count uniform seen enough inside,List.getElem_map,
          List.getElem?_eq_getElem (count ▸ inside)]
        rfl
    refine ⟨shards.drop d,?_⟩
    rw [← recovered]
    exact if_pos enough

end Code

end Vbe.ECC
