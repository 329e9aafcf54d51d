import Vbe.Content.Resolution

/-! What a lookup says of a content, without the entry: it is absent, deleted or live.
Where each entry that a lookup sees is later than those below it, or they are both
deletions, flushes and uploads do not change what is said, as long as the watermark
does not hide what a flush commits. -/
namespace Vbe.Content
open Vbe.Index WriteManager

inductive Status
  | absent
  | deleted
  | live
deriving DecidableEq

/-- The status of an entry. -/
def Status.of (deleted : Bool) : Status := if deleted then .deleted else .live

def Status.answered : Option Info → Status
  | none => .absent
  | some i => .of i.deleted

namespace Layers
variable {deletionWatermark : Int} {v w : Layers}

def status (deletionWatermark : Int) (v : Layers) : Status := .answered (v.answer deletionWatermark)

/-- An entry is later than another, or both are deletions. -/
def Over (x y : Info) : Prop := y.timestampSeconds < x.timestampSeconds ∨ x.deleted = true ∧ y.deleted = true

def Tiered (deletionWatermark : Int) (v : Layers) : Prop := (v.seen deletionWatermark).Pairwise Over

theorem Ordered.tiered (ordered : v.Ordered deletionWatermark) : v.Tiered deletionWatermark :=
  List.Pairwise.imp (fun {_ _} later => Or.inl later) ordered

theorem Tiered.sublist (tiered : v.Tiered deletionWatermark)
    (fewer : (w.seen deletionWatermark).Sublist (v.seen deletionWatermark)) : w.Tiered deletionWatermark :=
  List.Pairwise.sublist fewer tiered

/-- An entry over another decides whether the winner is a deletion. -/
theorem winner_over {old : Option Info} {x : Info} (ahead : ∀ o, old = some o → Over x o) :
    (Builder.winner old x).deleted = x.deleted := by
  rcases winner_cases old x with new | kept
  · rw [new]
  · rcases ahead _ kept with earlier | ⟨gone,both⟩
    · have later := le_of_not_beaten (winner_not_beaten old x x (Or.inl rfl))
      omega
    · rw [gone,both]

theorem le_winner (old : Option Info) (x : Info) : x.timestampSeconds ≤ (Builder.winner old x).timestampSeconds :=
  le_of_not_beaten (winner_not_beaten old x x (Or.inl rfl))

theorem seen_unwritten (writing : v.writing = []) : v.seen deletionWatermark =
    v.pending.toList ++ (v.built.toList ++ (visible deletionWatermark v.committed).toList) := by
  simp [seen,writing]

theorem visible_of_live {x : Info} (shown : x.deleted = true → deletionWatermark < x.timestampSeconds) :
    visible deletionWatermark (some x) = some x := by
  rw [visible_some,if_neg]
  rintro ⟨gone,early⟩
  have := shown gone
  omega

/-- What a flush commits takes the place of what was built, whatever the watermark
hides, when it is kept. -/
theorem Tiered.winner_committed (kept : v.Kept deletionWatermark) {x : Info} (first : v.pending.or v.built = some x)
    (ahead : ∀ h ∈ visible deletionWatermark v.committed, Over x h) :
    (Builder.winner v.committed x).deleted = x.deleted ∧
      visible deletionWatermark (some (Builder.winner v.committed x)) = some (Builder.winner v.committed x) := by
  have keeps := kept x first
  have same : (Builder.winner v.committed x).deleted = x.deleted := by
    rcases winner_cases v.committed x with new | old
    · rw [new]
    · by_cases shown : (Builder.winner v.committed x).deleted = true →
          deletionWatermark < (Builder.winner v.committed x).timestampSeconds
      · refine winner_over fun o committed => ahead o ?_
        have itself : o = Builder.winner v.committed x := Option.some.inj (committed.symm.trans old)
        rw [committed,itself,visible_of_live shown]
        rfl
      · simp only [Classical.not_imp,not_lt] at shown
        cases live : x.deleted with
        | true => exact shown.1
        | false =>
          rw [live] at keeps
          simp only [Bool.false_eq_true,if_false] at keeps
          exact live_of_not_beaten (winner_not_beaten v.committed x x (Or.inl rfl)) live fun gone =>
            keeps _ old gone shown.2
  refine ⟨same,visible_of_live fun gone => ?_⟩
  rw [same] at gone
  rw [gone] at keeps
  exact lt_of_lt_of_le keeps (le_winner v.committed x)

/-- One move of a flush says the same of the content as before. -/
theorem Tiered.move (tiered : v.Tiered deletionWatermark) (kept : v.Kept deletionWatermark) (writing : v.writing = [])
    (failed : v.failed = []) (move : Move False v w) :
    w.status deletionWatermark = v.status deletionWatermark ∧ w.Tiered deletionWatermark ∧ w.Kept deletionWatermark ∧
      w.writing = [] ∧ w.failed = [] := by
  have pairs := tiered
  rw [Tiered,seen_unwritten writing] at pairs
  cases move with
  | finishFailed x fails => exact fails.elim
  | retried before x after split => simp [failed] at split
  | retryFailed before x after fails => exact fails.elim
  | finished x pending =>
    have keeps := kept x (by simp [pending])
    rw [pending] at pairs
    simp only [Option.toList_some,List.cons_append,List.nil_append,List.pairwise_cons,List.mem_append,
      Option.mem_toList] at pairs
    obtain ⟨ahead,rest⟩ := pairs
    have same : (Builder.winner v.built x).deleted = x.deleted :=
      winner_over fun o built => ahead o (Or.inl built)
    refine ⟨?_,?_,?_,writing,failed⟩
    · simp [status,answer,seen,pending,writing,Status.answered,same]
    · simp only [Tiered,seen,writing,Option.toList_none,Option.toList_some,List.nil_append,List.cons_append,
        List.pairwise_cons,Option.mem_toList]
      refine ⟨fun z shown => ?_,(List.pairwise_append.mp rest).2.1⟩
      rcases winner_cases v.built x with new | old
      · rw [new]
        exact ahead z (Or.inr shown)
      · exact (List.pairwise_append.mp rest).2.2 _ (by simp [← old]) z (by simpa using shown)
    · intro y first
      have itself : Builder.winner v.built x = y := by simpa using first
      rw [← itself,same]
      have later := le_winner v.built x
      by_cases gone : x.deleted = true
      · rw [if_pos gone] at keeps ⊢
        exact lt_of_lt_of_le keeps later
      · rw [if_neg gone] at keeps ⊢
        exact fun h committed dead early => le_trans (keeps h committed dead early) later
  | committed x built =>
    rcases Option.eq_none_or_eq_some v.pending with pending | ⟨p,pending⟩
    · have first : v.pending.or v.built = some x := by simp [pending,built]
      rw [pending,built] at pairs
      simp only [Option.toList_none,Option.toList_some,List.nil_append,List.cons_append,List.pairwise_cons,
        Option.mem_toList] at pairs
      obtain ⟨same,shown⟩ := Tiered.winner_committed kept first pairs.1
      refine ⟨?_,?_,?_,writing,failed⟩
      · simp [status,answer,seen,pending,writing,built,shown,Status.answered,same]
      · simp [Tiered,seen,pending,writing,shown]
      · simp [Kept,pending]
    · have keeps := kept p (by simp [pending])
      rw [pending,built] at pairs
      simp only [Option.toList_some,List.cons_append,List.nil_append,List.pairwise_cons,List.mem_cons,
        Option.mem_toList] at pairs
      obtain ⟨ahead,below,_⟩ := pairs
      refine ⟨?_,?_,?_,writing,failed⟩
      · simp [status,answer,seen,pending]
      · simp only [Tiered,seen,writing,pending,Option.toList_none,Option.toList_some,List.nil_append,
          List.cons_append,List.pairwise_cons,Option.mem_toList]
        refine ⟨fun z shown => ?_,?_⟩
        · obtain ⟨itself,_⟩ := mem_visible shown
          cases Option.some.inj itself
          rcases winner_cases v.committed x with new | old
          · rw [new]
            exact ahead x (Or.inl rfl)
          · exact ahead _ (Or.inr ((congrArg (visible deletionWatermark) old).trans shown))
        · cases visible deletionWatermark (some (Builder.winner v.committed x)) <;> simp
      · intro y first
        have itself : p = y := by simpa [pending] using first
        subst itself
        by_cases live : p.deleted = true
        · rw [if_pos live] at keeps ⊢
          exact keeps
        · rw [if_neg live] at keeps ⊢
          intro h committed gone early
          cases Option.some.inj committed
          rcases winner_cases v.committed x with new | old
          · rw [new]
            rcases ahead x (Or.inl rfl) with later | ⟨dead,_⟩
            · exact le_of_lt later
            · exact absurd dead live
          · exact keeps _ old gone early

theorem Tiered.moves (tiered : v.Tiered deletionWatermark) (kept : v.Kept deletionWatermark) (writing : v.writing = [])
    (failed : v.failed = []) (moves : Moves False v w) :
    w.status deletionWatermark = v.status deletionWatermark ∧ w.Tiered deletionWatermark ∧ w.Kept deletionWatermark ∧
      w.writing = [] ∧ w.failed = [] := by
  induction moves with
  | refl => exact ⟨rfl,tiered,kept,writing,failed⟩
  | tail _ move ih =>
    obtain ⟨same,tiered,kept,writing,failed⟩ := ih
    obtain ⟨next,rest⟩ := tiered.move kept writing failed move
    exact ⟨next.trans same,rest⟩

/-- The result of the only upload under way says the same as before. -/
theorem Tiered.processed (tiered : v.Tiered deletionWatermark) (alone : v.writing.length ≤ 1)
    (processed : Processed False v w) :
    w.status deletionWatermark = v.status deletionWatermark ∧ w.Tiered deletionWatermark := by
  cases processed with
  | unaffected => exact ⟨rfl,tiered⟩
  | failed before x after fails => exact fails.elim
  | indexed before x after writing =>
    have ends : before = [] ∧ after = [] := by
      rw [writing] at alone
      simp only [List.length_append,List.length_cons] at alone
      exact ⟨List.eq_nil_of_length_eq_zero (by omega),List.eq_nil_of_length_eq_zero (by omega)⟩
    obtain ⟨rfl,rfl⟩ := ends
    rw [Tiered,seen,writing,List.pairwise_append] at tiered
    simp only [List.nil_append,List.cons_append,List.pairwise_cons,List.mem_cons,List.mem_append,
      Option.mem_toList] at tiered
    obtain ⟨pending,⟨ahead,rest⟩,above⟩ := tiered
    have same : (Builder.winner v.built x).deleted = x.deleted := winner_over fun o built => ahead o (Or.inl built)
    have either := winner_cases v.built x
    refine ⟨?_,?_⟩
    · cases top : v.pending <;> simp [status,answer,seen,writing,top,Status.answered,same]
    · rw [Tiered,seen,List.pairwise_append]
      simp only [List.nil_append,Option.toList_some,List.cons_append,List.pairwise_cons,List.mem_cons,
        Option.mem_toList]
      refine ⟨pending,⟨fun z shown => ?_,(List.pairwise_append.mp rest).2.1⟩,fun p top z inside => ?_⟩
      · rcases either with new | old
        · rw [new]
          exact ahead z (Or.inr shown)
        · exact (List.pairwise_append.mp rest).2.2 _ (by simp [← old]) z (by simpa using shown)
      · rcases inside with rfl | shown
        · rcases either with new | old
          · rw [new]
            exact above p top x (Or.inl rfl)
          · exact above p top _ (Or.inr (Or.inl old))
        · exact above p top z (Or.inr (Or.inr shown))

theorem seen_publish (x : Info) :
    (v.publish (some x)).seen deletionWatermark = x :: (v.publish none).seen deletionWatermark := by
  simp [seen,Layers.publish]

/-- A pending entry over all that was seen before. -/
theorem Tiered.publish (tiered : v.Tiered deletionWatermark) {x : Info}
    (ahead : ∀ y ∈ (v.publish none).seen deletionWatermark, Over x y) :
    (v.publish (some x)).Tiered deletionWatermark ∧
      (v.publish (some x)).status deletionWatermark = .of x.deleted := by
  refine ⟨?_,?_⟩
  · rw [Tiered,seen_publish]
    exact List.Pairwise.cons ahead (tiered.sublist seen_publish_none)
  · rw [status,answer,seen_publish]
    rfl

theorem status_startWriting (deletionWatermark : Int) (writing : v.writing = []) :
    v.startWriting.status deletionWatermark = v.status deletionWatermark ∧
      (v.Tiered deletionWatermark → v.startWriting.Tiered deletionWatermark) := by
  simp [status,answer,Tiered,seen_startWriting writing]

/-- What a deletion looks at is below deletions only. -/
theorem deleteTarget_split {y : Info} (target : v.deleteTarget deletionWatermark = some y) :
    ∃ before after, (v.publish none).seen deletionWatermark = before ++ y :: after ∧ ∀ z ∈ before, z.deleted = true := by
  simp only [deleteTarget,Option.or_eq_some_iff] at target
  have gone (none : v.writing.find? (!·.deleted) = none) : ∀ z ∈ v.writing, z.deleted = true := by
    intro z member
    simpa using List.find?_eq_none.mp none z member
  rcases target with (first | ⟨none,built⟩) | ⟨none,shown⟩
  · obtain ⟨_,before,after,split,dead⟩ := List.find?_eq_some_iff_append.mp first
    refine ⟨before,after ++ (v.built.toList ++ (visible deletionWatermark v.committed).toList),?_,fun z member => ?_⟩
    · simp [seen,Layers.publish,split]
    · simpa using dead z member
  · exact ⟨v.writing,(visible deletionWatermark v.committed).toList,by simp [seen,Layers.publish,built],gone none⟩
  · obtain ⟨notWriting,notBuilt⟩ := Option.or_eq_none_iff.mp none
    exact ⟨v.writing,[],by simp [seen,Layers.publish,notBuilt,shown],gone notWriting⟩

theorem deleteTarget_none (nothing : v.deleteTarget deletionWatermark = none) :
    ∀ z ∈ (v.publish none).seen deletionWatermark, z.deleted = true := by
  simp only [deleteTarget,Option.or_eq_none_iff] at nothing
  obtain ⟨⟨writing,built⟩,shown⟩ := nothing
  intro z member
  simp only [seen,Layers.publish,built,shown,Option.toList_none,List.append_nil] at member
  simpa using List.find?_eq_none.mp writing z member

end Layers

end Vbe.Content
