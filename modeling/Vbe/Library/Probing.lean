import Mathlib.Data.Fintype.Card
import Mathlib.Data.Int.GCD
import Mathlib.Data.Nat.ModEq
import Mathlib.Data.Set.Card

/-! Open addressing: a search goes through the slots of a table in steps of one length until
a slot is vacant or holds the key. Where the length of the step has no factor in common with the
number of slots it comes by all of them. Comparing a key with that of an entry may fail. -/
namespace Vbe.Library.Probing

variable {E K : Type}

/-- The loop that goes on with `slot = (slot + delta) % size` until it stops, over at most so many rounds. -/
def walk (stops : E → Option Bool) (slots : List E) (delta : Nat) : Nat → Nat → Option Nat
  | 0, _ => none
  | rounds + 1, slot => do
    let e ← slots[slot]?
    if ← stops e then return slot
    walk stops slots delta rounds ((slot + delta) % slots.length)

section Walks

variable {stops : E → Option Bool} {slots : List E} {delta : Nat}

theorem walk_stops {rounds slot found : Nat} (walked : walk stops slots delta rounds slot = some found) :
    ∃ e, slots[found]? = some e ∧ stops e = some true := by
  induction rounds generalizing slot with
  | zero => simp [walk] at walked
  | succ rounds ih =>
    simp only [walk,Option.bind_eq_bind,Option.bind_eq_some_iff] at walked
    obtain ⟨e,there,stopped,answer,goes⟩ := walked
    cases stopped with
    | true =>
      obtain rfl : slot = found := by simpa using goes
      exact ⟨e,there,answer⟩
    | false => exact ih (by simpa using goes)

/-- A walk depends only on what it goes past and on where it stops. -/
theorem walk_mono {others : List E} {stops' : E → Option Bool} (length : others.length = slots.length)
    (passes : ∀ (s : Nat) (e : E), slots[s]? = some e → stops e = some false →
      ∃ e', others[s]? = some e' ∧ stops' e' = some false) {rounds slot found : Nat}
    (walked : walk stops slots delta rounds slot = some found)
    (ends : ∃ e', others[found]? = some e' ∧ stops' e' = some true) :
    walk stops' others delta rounds slot = some found := by
  induction rounds generalizing slot with
  | zero => simp [walk] at walked
  | succ rounds ih =>
    simp only [walk,Option.bind_eq_bind,Option.bind_eq_some_iff] at walked
    obtain ⟨e,there,stopped,answer,goes⟩ := walked
    cases stopped with
    | true =>
      obtain rfl : slot = found := by simpa using goes
      obtain ⟨e',there',answer'⟩ := ends
      simp [walk,there',answer']
    | false =>
      obtain ⟨e',there',answer'⟩ := passes slot e there answer
      have rest := ih (by simpa using goes)
      simpa [walk,there',answer',length] using rest

theorem walk_congr {stops' : E → Option Bool} (same : ∀ e ∈ slots, stops' e = stops e) (rounds slot : Nat) :
    walk stops' slots delta rounds slot = walk stops slots delta rounds slot := by
  induction rounds generalizing slot with
  | zero => rfl
  | succ rounds ih =>
    cases there : slots[slot]? with
    | none => simp [walk,there]
    | some e =>
      rw [walk,walk,there,Option.bind_eq_bind,Option.bind_eq_bind,Option.bind_some,Option.bind_some,
        same e (List.mem_of_getElem? there)]
      simp only [ih]

theorem walk_none (readable : ∀ e ∈ slots, (stops e).isSome) {rounds slot : Nat} (inside : slot < slots.length)
    (walked : walk stops slots delta rounds slot = none) {i : Nat} (early : i < rounds) {e : E}
    (there : slots[(slot + i * delta) % slots.length]? = some e) : stops e = some false := by
  induction rounds generalizing slot i with
  | zero => omega
  | succ rounds ih =>
    obtain ⟨answer,known⟩ := Option.isSome_iff_exists.mp (readable _ (List.getElem_mem inside))
    have next : (slot + delta) % slots.length < slots.length := Nat.mod_lt _ (by omega)
    rw [walk,List.getElem?_eq_getElem inside] at walked
    cases answer with
    | true => simp [known] at walked
    | false =>
      cases i with
      | zero =>
        simp only [Nat.zero_mul,Nat.add_zero,Nat.mod_eq_of_lt inside,List.getElem?_eq_getElem inside,
          Option.some.injEq] at there
        rw [← there,known]
      | succ i =>
        refine ih next (by simpa [known] using walked) (Nat.lt_of_succ_lt_succ early) ?_
        rw [Nat.mod_add_mod,Nat.add_assoc,Nat.add_comm delta,← Nat.succ_mul]
        exact there

/-- Steps that have no factor in common with the number of slots lead from any slot to any other. -/
theorem reaches {size delta : Nat} (coprime : delta.Coprime size) (start : Nat) {target : Nat}
    (inside : target < size) : ∃ i < size, (start + i * delta) % size = target := by
  have low : start % size < size := Nat.mod_lt _ (by omega)
  obtain ⟨i,small,stepped⟩ :=
    Nat.exists_mul_mod_eq_of_coprime (target + (size - start % size)) coprime (by omega)
  refine ⟨i,small,?_⟩
  have around : start % size + (target + (size - start % size)) = target + size := by omega
  rw [Nat.mul_comm i,Nat.add_mod,stepped,Nat.add_mod_mod,around,Nat.add_mod_right,Nat.mod_eq_of_lt inside]

end Walks

section Tables

variable [DecidableEq K] (vacant : E → Bool) (key : E → Option K) (start delta : K → Nat)

/-- Whether the search for a key stops at an entry. -/
def stopsAt (k : K) (e : E) : Option Bool := if vacant e then some true else (key e).map (k == ·)

/-- So many rounds as there are slots come by every slot there is. -/
def search (slots : List E) (k : K) : Option Nat :=
  walk (stopsAt vacant key k) slots (delta k) slots.length (start k % slots.length)

/-- The entries of a table hold the keys of a list, each one where the search for it stops. -/
structure Indexed (slots : List E) (keys : List K) : Prop where
  sound : ∀ {s : Nat} {e : E}, slots[s]? = some e → vacant e = false →
    ∃ k ∈ keys, key e = some k ∧ search vacant key start delta slots k = some s
  complete : ∀ k ∈ keys, ∃ (s : Nat) (e : E), slots[s]? = some e ∧ vacant e = false ∧ key e = some k

variable {vacant : E → Bool} {key : E → Option K} {start delta : K → Nat} {slots : List E} {keys : List K}

theorem stopsAt_vacant {e : E} (empty : vacant e = true) (k : K) : stopsAt vacant key k e = some true := by
  simp [stopsAt,empty]

theorem stopsAt_key {e : E} {l : K} (full : vacant e = false) (read : key e = some l) (k : K) :
    stopsAt vacant key k e = some (k == l) := by
  simp [stopsAt,full,read]

theorem stopsAt_false {k : K} {e : E} (passed : stopsAt vacant key k e = some false) :
    vacant e = false ∧ ∃ l, key e = some l ∧ k ≠ l := by
  unfold stopsAt at passed
  split at passed
  next => simp at passed
  next full =>
    obtain ⟨l,read,differs⟩ := Option.map_eq_some_iff.mp passed
    exact ⟨by simpa using full,l,read,by simpa using differs⟩

theorem Indexed.empty {e : E} (empty : vacant e = true) (size : Nat) :
    Indexed vacant key start delta (List.replicate size e) [] := by
  constructor
  · intro s e' there full
    obtain ⟨_,rfl⟩ := List.getElem?_eq_some_iff.mp there
    simp [empty] at full
  · intro k member
    cases member

theorem Indexed.readable (indexed : Indexed vacant key start delta slots keys) (k : K) :
    ∀ e ∈ slots, (stopsAt vacant key k e).isSome := by
  intro e member
  obtain ⟨s,there⟩ := List.mem_iff_getElem?.mp member
  cases full : vacant e with
  | true => simp [stopsAt_vacant full]
  | false =>
    obtain ⟨l,_,read,_⟩ := indexed.sound there full
    simp [stopsAt_key full read]

/-- A search for a key that the table holds stops where it is. -/
theorem Indexed.present (indexed : Indexed vacant key start delta slots keys) {k : K} (member : k ∈ keys) :
    ∃ (s : Nat) (e : E), search vacant key start delta slots k = some s ∧ slots[s]? = some e ∧ vacant e = false ∧
      key e = some k := by
  obtain ⟨s,e,there,full,read⟩ := indexed.complete k member
  obtain ⟨l,_,again,found⟩ := indexed.sound there full
  obtain rfl : k = l := by simpa [read] using again
  exact ⟨s,e,found,there,full,read⟩

/-- A table with fewer keys than slots has a vacant slot. -/
theorem Indexed.vacancy (indexed : Indexed vacant key start delta slots keys) (fewer : keys.length < slots.length) :
    ∃ (s : Nat) (e : E), slots[s]? = some e ∧ vacant e = true := by
  by_contra none
  push Not at none
  have holds : ∀ s : Fin slots.length, ∃ k ∈ keys, search vacant key start delta slots k = some s.val := by
    intro s
    have there : slots[s.val]? = some slots[s.val] := List.getElem?_eq_getElem s.isLt
    obtain ⟨k,member,_,found⟩ := indexed.sound there (by simpa using none s.val _ there)
    exact ⟨k,member,found⟩
  choose held member found using holds
  have distinct : Function.Injective held := by
    intro s t same
    have one := found s
    rw [same,found t,Option.some.injEq] at one
    exact (Fin.ext one).symm
  have covered : (Finset.univ.image held) ⊆ keys.toFinset := by
    intro k image
    obtain ⟨s,_,rfl⟩ := Finset.mem_image.mp image
    exact List.mem_toFinset.mpr (member s)
  have counted := Finset.card_le_card covered
  rw [Finset.card_image_of_injective _ distinct,Finset.card_univ,Fintype.card_fin] at counted
  exact absurd (counted.trans (List.toFinset_card_le keys)) (by omega)

/-- A search for a key that the table does not hold stops at a vacant slot. -/
theorem Indexed.absent (indexed : Indexed vacant key start delta slots keys) {k : K} (missing : k ∉ keys)
    (fewer : keys.length < slots.length) (coprime : (delta k).Coprime slots.length) :
    ∃ (s : Nat) (e : E), search vacant key start delta slots k = some s ∧ slots[s]? = some e ∧ vacant e = true := by
  have some_slot : 0 < slots.length := by omega
  cases searched : search vacant key start delta slots k with
  | none =>
    obtain ⟨s,e,there,empty⟩ := indexed.vacancy fewer
    have inside : s < slots.length := (List.getElem?_eq_some_iff.mp there).1
    obtain ⟨i,early,arrives⟩ := reaches coprime (start k % slots.length) inside
    have passed := walk_none (indexed.readable k) (Nat.mod_lt _ some_slot) searched early (by rw [arrives,there])
    simp [stopsAt_vacant empty] at passed
  | some s =>
    obtain ⟨e,there,stopped⟩ := walk_stops searched
    refine ⟨s,e,rfl,there,?_⟩
    cases full : vacant e with
    | true => rfl
    | false =>
      obtain ⟨l,member,read,_⟩ := indexed.sound there full
      obtain rfl : k = l := by simpa [stopsAt_key full read] using stopped
      exact absurd member missing

/-- A key is added at the vacant slot at which the search for it stops. -/
theorem Indexed.insert (indexed : Indexed vacant key start delta slots keys) {k : K} {s : Nat} {old e : E}
    (searched : search vacant key start delta slots k = some s) (there : slots[s]? = some old)
    (empty : vacant old = true) (full : vacant e = false) (read : key e = some k) :
    Indexed vacant key start delta (slots.set s e) (keys ++ [k]) := by
  have inside : s < slots.length := (List.getElem?_eq_some_iff.mp there).1
  have passes : ∀ l (t : Nat) (e' : E), slots[t]? = some e' → stopsAt vacant key l e' = some false →
      ∃ e'', (slots.set s e)[t]? = some e'' ∧ stopsAt vacant key l e'' = some false := by
    intro l t e' at_t passed
    by_cases same : s = t
    · subst same
      rw [there,Option.some.injEq] at at_t
      simp [← at_t,stopsAt_vacant empty] at passed
    · exact ⟨e',by rw [List.getElem?_set_ne same,at_t],passed⟩
  constructor
  · intro t e' at_t held
    by_cases same : s = t
    · subst same
      rw [List.getElem?_set_self inside,Option.some.injEq] at at_t
      subst at_t
      refine ⟨k,by simp,read,?_⟩
      unfold search at searched ⊢
      rw [List.length_set]
      exact walk_mono List.length_set (passes k) searched
        ⟨e,List.getElem?_set_self inside,by simp [stopsAt_key full read]⟩
    · rw [List.getElem?_set_ne same] at at_t
      obtain ⟨l,member,reads,found⟩ := indexed.sound at_t held
      refine ⟨l,by simp [member],reads,?_⟩
      unfold search at found ⊢
      rw [List.length_set]
      exact walk_mono List.length_set (passes l) found
        ⟨e',by rw [List.getElem?_set_ne same,at_t],by simp [stopsAt_key held reads]⟩
  · intro l member
    rcases List.mem_append.mp member with earlier | added
    · obtain ⟨t,e',at_t,held,reads⟩ := indexed.complete l earlier
      refine ⟨t,e',?_,held,reads⟩
      rw [List.getElem?_set_ne ?_,at_t]
      rintro rfl
      rw [there,Option.some.injEq] at at_t
      simp [← at_t,empty] at held
    · obtain rfl : l = k := by simpa using added
      exact ⟨s,e,List.getElem?_set_self inside,full,read⟩

/-- A search depends only on the keys of the entries in the table. -/
theorem search_congr {key' : E → Option K} (same : ∀ e ∈ slots, vacant e = false → key' e = key e) (k : K) :
    search vacant key' start delta slots k = search vacant key start delta slots k := by
  refine walk_congr ?_ _ _
  intro e member
  cases full : vacant e with
  | true => rw [stopsAt_vacant full,stopsAt_vacant full]
  | false => simp [stopsAt,full,same e member full]

theorem Indexed.congr (indexed : Indexed vacant key start delta slots keys) {key' : E → Option K}
    (same : ∀ e ∈ slots, vacant e = false → key' e = key e) : Indexed vacant key' start delta slots keys := by
  constructor
  · intro s e there full
    obtain ⟨k,member,read,found⟩ := indexed.sound there full
    exact ⟨k,member,by rw [same e (List.mem_of_getElem? there) full,read],by rw [search_congr same,found]⟩
  · intro k member
    obtain ⟨s,e,there,full,read⟩ := indexed.complete k member
    exact ⟨s,e,there,full,by rw [same e (List.mem_of_getElem? there) full,read]⟩

end Tables

end Vbe.Library.Probing
