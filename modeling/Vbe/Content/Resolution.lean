import Vbe.Content.Sections

/-! The two ways a content is resolved: a lookup takes the first entry of the places
in their order, the merged index takes the winner by time. Where the entries that a
lookup sees get strictly older from place to place, moves drop entries only, and a
whole flush commits the winner of the first uncommitted entry and the committed one. -/
namespace Vbe.Content
open Vbe.Index

namespace Layers
variable {deletionWatermark : Int} {v w : Layers}

/-- The entries that a lookup sees get strictly older. -/
def Ordered (deletionWatermark : Int) (v : Layers) : Prop :=
  (v.seen deletionWatermark).Pairwise fun x y => y.timestampSeconds < x.timestampSeconds

theorem Ordered.sublist (ordered : v.Ordered deletionWatermark)
    (fewer : (w.seen deletionWatermark).Sublist (v.seen deletionWatermark)) : w.Ordered deletionWatermark :=
  List.Pairwise.sublist fewer ordered

/-- The first entry seen is the latest. -/
theorem Ordered.le_answer (ordered : v.Ordered deletionWatermark) {x : Info} (top : v.answer deletionWatermark = some x) :
    ∀ y ∈ v.seen deletionWatermark, y.timestampSeconds ≤ x.timestampSeconds := by
  obtain ⟨rest,shape⟩ := List.head?_eq_some_iff.mp top
  unfold Ordered at ordered
  rw [shape] at ordered ⊢
  intro y member
  rcases List.mem_cons.mp member with rfl | below
  · exact le_refl _
  · exact le_of_lt ((List.pairwise_cons.mp ordered).1 y below)

/-- With nothing written or failed, an uncommitted entry is later than what is below. -/
theorem Ordered.pending_built (ordered : v.Ordered deletionWatermark) {x b : Info} (pending : v.pending = some x)
    (built : v.built = some b) : b.timestampSeconds < x.timestampSeconds := by
  simp only [Ordered,seen,pending,built,Option.toList_some,List.cons_append,List.nil_append,
    List.pairwise_cons,List.mem_append,List.mem_cons] at ordered
  exact ordered.1 b (Or.inr (Or.inl rfl))

theorem visible_some (x : Info) : visible deletionWatermark (some x) =
    if x.deleted = true ∧ x.timestampSeconds ≤ deletionWatermark then none else some x := by
  cases deleted : x.deleted <;> by_cases early : x.timestampSeconds ≤ deletionWatermark <;>
    simp [visible,Option.filter,deleted,early]

theorem mem_visible {o : Option Info} {x : Info} (shown : x ∈ visible deletionWatermark o) :
    o = some x ∧ (x.deleted = true → deletionWatermark < x.timestampSeconds) := by
  obtain ⟨same,kept⟩ := Option.filter_eq_some_iff.mp shown
  refine ⟨same,fun deleted => ?_⟩
  simpa [deleted] using kept

/-- Moves made while nothing is written or failed and nothing fails drop entries from
what a lookup sees. -/
theorem Move.seen_sublist (move : Move False v w) (writing : v.writing = []) (failed : v.failed = [])
    (ordered : v.Ordered deletionWatermark) :
    (w.seen deletionWatermark).Sublist (v.seen deletionWatermark) ∧ w.writing = [] ∧ w.failed = [] := by
  cases move with
  | finished x pending =>
    refine ⟨?_,writing,failed⟩
    have top : Builder.winner v.built x = x := winner_of_later fun o built => ordered.pending_built pending built
    simp only [seen,pending,writing,top,Option.toList_none,Option.toList_some,List.nil_append,List.cons_append]
    exact List.Sublist.cons_cons x (List.sublist_append_right _ _)
  | finishFailed x fails => exact fails.elim
  | retried before x after split => simp [failed] at split
  | retryFailed before x after fails => exact fails.elim
  | committed x built =>
    refine ⟨?_,writing,failed⟩
    simp only [seen,writing,built,Option.toList_none,Option.toList_some,List.nil_append,List.singleton_append]
    refine List.Sublist.append_left ?_ _
    rcases winner_cases v.committed x with new | old
    · rw [new,visible_some]
      split
      · exact List.nil_sublist _
      · exact List.Sublist.cons_cons x (List.nil_sublist _)
    · rw [← old]
      exact List.sublist_cons_self _ _

theorem Moves.seen_sublist (moves : Moves False v w) (writing : v.writing = []) (failed : v.failed = [])
    (ordered : v.Ordered deletionWatermark) :
    (w.seen deletionWatermark).Sublist (v.seen deletionWatermark) ∧ w.writing = [] ∧ w.failed = [] := by
  induction moves with
  | refl => exact ⟨List.Sublist.refl _,writing,failed⟩
  | tail _ move ih =>
    obtain ⟨fewer,writing,failed⟩ := ih
    obtain ⟨more,kept⟩ := move.seen_sublist writing failed (ordered.sublist fewer)
    exact ⟨more.trans fewer,kept⟩

/-- The result of the only upload under way. -/
theorem Processed.seen_sublist (processed : Processed False v w) (alone : v.writing.length ≤ 1)
    (ordered : v.Ordered deletionWatermark) : (w.seen deletionWatermark).Sublist (v.seen deletionWatermark) := by
  cases processed with
  | unaffected => exact List.Sublist.refl _
  | failed before x after fails => exact fails.elim
  | indexed before x after writing =>
    have ends : before = [] ∧ after = [] := by
      rw [writing] at alone
      simp only [List.length_append,List.length_cons] at alone
      exact ⟨List.eq_nil_of_length_eq_zero (by omega),List.eq_nil_of_length_eq_zero (by omega)⟩
    obtain ⟨rfl,rfl⟩ := ends
    have top : Builder.winner v.built x = x := by
      refine winner_of_later fun o built => ?_
      unfold Ordered seen at ordered
      rw [List.pairwise_append] at ordered
      have below := ordered.2.1
      simp only [writing,built,Option.toList_some,List.nil_append,List.cons_append,List.pairwise_cons,
        List.mem_cons] at below
      exact below.1 o (Or.inl rfl)
    simp only [seen,writing,top,Option.toList_some,List.nil_append,List.cons_append,List.append_nil]
    refine List.Sublist.append_left ?_ _
    exact List.Sublist.cons_cons x (List.sublist_append_right _ _)

theorem seen_startWriting (writing : v.writing = []) :
    (v.startWriting).seen deletionWatermark = v.seen deletionWatermark := by
  simp [seen,startWriting,writing]

theorem seen_publish_none :
    ((v.publish none).seen deletionWatermark).Sublist (v.seen deletionWatermark) := by
  simp only [seen,Layers.publish,Option.toList_none,List.nil_append]
  exact List.sublist_append_right _ _

/-- A pending entry that is later than all entries seen before. -/
theorem Ordered.publish (ordered : v.Ordered deletionWatermark) {x : Info}
    (later : ∀ y ∈ (v.publish none).seen deletionWatermark, y.timestampSeconds < x.timestampSeconds) :
    (v.publish (some x)).Ordered deletionWatermark := by
  have rest : (v.publish none).Ordered deletionWatermark := ordered.sublist seen_publish_none
  have shape : (v.publish (some x)).seen deletionWatermark = x :: (v.publish none).seen deletionWatermark := by
    simp [seen,Layers.publish]
  unfold Ordered
  rw [shape]
  exact List.Pairwise.cons later rest

/-- What a whole flush commits: the committed entry resolved against the first
uncommitted one. -/
def resolved (v : Layers) : Option Info :=
  match v.pending.or v.built with
  | none => v.committed
  | some x => some (Builder.winner v.committed x)

/-- A later entry makes one that it would beat anyway irrelevant. -/
theorem winner_winner {o : Option Info} {x y : Info} (later : x.timestampSeconds < y.timestampSeconds) :
    Builder.winner (some (Builder.winner o x)) y = Builder.winner o y := by
  rcases winner_cases o x with new | old
  · rw [new,winner_of_later fun z same => Option.some.inj same ▸ later]
    refine (winner_of_later fun z same => ?_).symm
    have unbeaten := winner_not_beaten o x z (Or.inr same)
    rw [new] at unbeaten
    exact lt_of_le_of_lt (le_of_not_beaten unbeaten) later
  · rw [← old]

theorem Move.resolved (move : Move False v w) (failed : v.failed = []) (ordered : v.Ordered deletionWatermark) :
    w.resolved = v.resolved := by
  cases move with
  | finished x pending =>
    have top : Builder.winner v.built x = x := winner_of_later fun o built => ordered.pending_built pending built
    simp [Layers.resolved,pending,top]
  | finishFailed x fails => exact fails.elim
  | retried before x after split => simp [failed] at split
  | retryFailed before x after fails => exact fails.elim
  | committed x built =>
    cases pending : v.pending with
    | none => simp [Layers.resolved,pending,built]
    | some p => simp [Layers.resolved,pending,winner_winner (ordered.pending_built pending built)]

theorem Moves.resolved (moves : Moves False v w) (writing : v.writing = []) (failed : v.failed = [])
    (ordered : v.Ordered deletionWatermark) : w.resolved = v.resolved := by
  induction moves with
  | refl => rfl
  | tail steps move ih =>
    obtain ⟨fewer,_,failed⟩ := Moves.seen_sublist steps writing failed ordered
    exact (move.resolved failed (ordered.sublist fewer)).trans ih

/-- When a flush shows again what was seen before it: a deletion must be later than
the watermark, and a live entry must hold up against a committed deletion that the
watermark hides. -/
def Kept (deletionWatermark : Int) (v : Layers) : Prop :=
  ∀ x ∈ v.pending.or v.built,
    if x.deleted = true then deletionWatermark < x.timestampSeconds
    else ∀ h ∈ v.committed, h.deleted = true → h.timestampSeconds ≤ deletionWatermark →
      h.timestampSeconds ≤ x.timestampSeconds

theorem answer_uncommitted (writing : v.writing = []) :
    v.answer deletionWatermark = (v.pending.or v.built).or (visible deletionWatermark v.committed) := by
  cases pending : v.pending <;> cases built : v.built <;> cases shown : visible deletionWatermark v.committed <;>
    simp [answer,seen,writing,pending,built,shown]

theorem below_first (ordered : v.Ordered deletionWatermark) {x h : Info} (first : v.pending.or v.built = some x)
    (shown : h ∈ visible deletionWatermark v.committed) : h.timestampSeconds < x.timestampSeconds := by
  cases pending : v.pending with
  | some p =>
    cases Option.some.inj ((by simp [pending] : v.pending.or v.built = some p).symm.trans first)
    simp only [Ordered,seen,pending,Option.mem_def.mp shown,Option.toList_some,List.cons_append,List.nil_append,
      List.pairwise_cons,List.mem_append,List.mem_singleton] at ordered
    exact ordered.1 h (Or.inr (Or.inr rfl))
  | none =>
    have built : v.built = some x := by simpa [pending] using first
    unfold Ordered seen at ordered
    rw [List.pairwise_append] at ordered
    have below := (List.pairwise_append.mp ordered.2.1).2.1
    simp only [built,Option.mem_def.mp shown,Option.toList_some,List.cons_append,List.nil_append,
      List.pairwise_cons,List.mem_singleton] at below
    exact below.1 h rfl

/-- A flush shows what was seen before it exactly when it is kept. -/
theorem visible_resolved_iff (ordered : v.Ordered deletionWatermark) (writing : v.writing = []) :
    visible deletionWatermark v.resolved = v.answer deletionWatermark ↔ v.Kept deletionWatermark := by
  rw [answer_uncommitted writing]
  cases first : v.pending.or v.built with
  | none => simp [Layers.resolved,Kept,first]
  | some x =>
    have below := fun h => below_first (h := h) ordered first
    simp only [Layers.resolved,Kept,first,Option.some_or,Option.mem_def,Option.some.injEq,forall_eq']
    cases committed : v.committed with
    | none => cases deleted : x.deleted <;> simp [Builder.winner,visible_some,deleted]
    | some h =>
      rw [committed] at below
      simp only [Option.some.injEq,forall_eq']
      by_cases hidden : h.deleted = true ∧ h.timestampSeconds ≤ deletionWatermark
      · obtain ⟨gone,early⟩ := hidden
        rcases winner_some h x with new | old
        · have after := le_of_not_beaten (winner_not_beaten (some h) x h (Or.inr rfl))
          rw [new] at after ⊢
          cases deleted : x.deleted <;> simp [visible_some,deleted,after]
        · have unbeaten := winner_not_beaten (some h) x x (Or.inl rfl)
          rw [old] at unbeaten ⊢
          have after := le_of_not_beaten unbeaten
          cases deleted : x.deleted with
          | true => simp [visible_some,gone,early,le_trans after early]
          | false =>
            have loses : ¬h.timestampSeconds ≤ x.timestampSeconds := by
              intro notLater
              have live := live_of_not_beaten unbeaten deleted fun _ => notLater
              simp [gone] at live
            simp [visible_some,gone,early,loses]
      · have less := below h (by rw [visible_some,if_neg hidden]; rfl)
        rw [winner_of_later fun o same => Option.some.inj same ▸ less]
        cases deleted : x.deleted with
        | true => simp [visible_some,deleted]
        | false =>
          simp only [visible_some,deleted,Bool.false_eq_true,false_and,if_false,true_iff]
          exact fun gone early => absurd ⟨gone,early⟩ hidden

end Layers

end Vbe.Content
