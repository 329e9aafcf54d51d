import Vbe.Index.Builder
import Mathlib.Logic.Relation

/-! One content as the places of a write manager hold it: at most one entry in a
pending pack, one for each pack being written or failed, one in the index being
built and the winner of the committed index. Uploads and flushes move entries from
place to place and resolve two entries by the rule of the index. -/
namespace Vbe.Content
open Vbe.Index

/-- The entries of one content, by place. -/
structure Layers where
  pending : Option Info
  writing : List Info
  failed : List Info
  built : Option Info
  committed : Option Info

namespace Layers

/-- A committed deletion is hidden once the watermark has reached it. -/
def visible (deletionWatermark : Int) (committed : Option Info) : Option Info :=
  committed.filter fun i => !(i.deleted && i.timestampSeconds ≤ deletionWatermark)

/-- The entries a lookup sees, in the order in which it sees them. -/
def seen (deletionWatermark : Int) (v : Layers) : List Info :=
  v.pending.toList ++ (v.writing ++ (v.built.toList ++ (visible deletionWatermark v.committed).toList))

/-- What a lookup answers. -/
def answer (deletionWatermark : Int) (v : Layers) : Option Info := (v.seen deletionWatermark).head?

/-- All entries, those of failed packs and hidden deletions included. -/
def entries (v : Layers) : List Info :=
  v.pending.toList ++ (v.writing ++ (v.failed ++ (v.built.toList ++ v.committed.toList)))

/-- The moves made under the lock by retries and flushes. Only packs that may fail
to upload go to the failed ones. -/
inductive Move (mayFail : Prop) : Layers → Layers → Prop
  | finished (v : Layers) (x : Info) : v.pending = some x →
      Move mayFail v {v with pending := none, built := some (Builder.winner v.built x)}
  | finishFailed (v : Layers) (x : Info) : mayFail → v.pending = some x →
      Move mayFail v {v with pending := none, failed := v.failed ++ [x]}
  | retried (v : Layers) (before : List Info) (x : Info) (after : List Info) : v.failed = before ++ x :: after →
      Move mayFail v {v with failed := before ++ after, built := some (Builder.winner v.built x)}
  | retryFailed (v : Layers) (before : List Info) (x : Info) (after : List Info) : mayFail →
      v.failed = before ++ x :: after → Move mayFail v {v with failed := before ++ after ++ [x]}
  | committed (v : Layers) (x : Info) : v.built = some x →
      Move mayFail v {v with built := none, committed := some (Builder.winner v.committed x)}

/-- The result of an upload made without the lock. -/
inductive Processed (mayFail : Prop) : Layers → Layers → Prop
  | unaffected (v : Layers) : Processed mayFail v v
  | indexed (v : Layers) (before : List Info) (x : Info) (after : List Info) : v.writing = before ++ x :: after →
      Processed mayFail v {v with writing := before ++ after, built := some (Builder.winner v.built x)}
  | failed (v : Layers) (before : List Info) (x : Info) (after : List Info) : mayFail →
      v.writing = before ++ x :: after →
      Processed mayFail v {v with writing := before ++ after, failed := v.failed ++ [x]}

abbrev Moves (mayFail : Prop) : Layers → Layers → Prop := Relation.ReflTransGen (Move mayFail)

end Layers

section Winner

/-- An entry that is not beaten by another is at least as late. -/
theorem le_of_not_beaten {x y : Info} (unbeaten : contentInfoGreaterThanStruct x y = false) :
    x.timestampSeconds ≤ y.timestampSeconds := by
  unfold contentInfoGreaterThanStruct at unbeaten
  split at unbeaten
  · simpa using unbeaten
  · omega

/-- At equal times a deletion does not stand against a live entry. -/
theorem live_of_not_beaten {x y : Info} (unbeaten : contentInfoGreaterThanStruct x y = false)
    (live : x.deleted = false) (notLater : y.deleted = true → y.timestampSeconds ≤ x.timestampSeconds) :
    y.deleted = false := by
  by_contra gone
  have deleted : y.deleted = true := by simpa using gone
  have same : x.timestampSeconds = y.timestampSeconds :=
    le_antisymm (le_of_not_beaten unbeaten) (notLater deleted)
  simp [contentInfoGreaterThanStruct,same,live,deleted] at unbeaten

end Winner

namespace Layers

/-- Moves bring no entries of their own. -/
theorem Move.fewer {mayFail : Prop} {v w : Layers} (move : Move mayFail v w) : ∀ y ∈ w.entries, y ∈ v.entries := by
  intro y member
  cases move with
  | finished x pending =>
    have winner := winner_cases v.built x
    simp only [entries,pending,Option.toList_none,Option.toList_some,List.mem_append,List.mem_singleton,
      List.not_mem_nil,Option.mem_toList] at member ⊢
    rcases member with none | writing | failed | rfl | committed <;> tauto
  | finishFailed x _ pending =>
    simp only [entries,pending,Option.toList_none,Option.toList_some,List.mem_append,List.mem_singleton,
      List.not_mem_nil] at member ⊢
    tauto
  | retried before x after failed =>
    have winner := winner_cases v.built x
    simp only [entries,failed,Option.toList_some,List.mem_append,List.mem_cons,List.not_mem_nil,
      Option.mem_toList] at member ⊢
    rcases member with pending | writing | others | (rfl | none) | committed <;> tauto
  | retryFailed before x after _ failed =>
    simp only [entries,failed,List.mem_append,List.mem_cons,List.not_mem_nil] at member ⊢
    tauto
  | committed x built =>
    have winner := winner_cases v.committed x
    simp only [entries,built,Option.toList_none,Option.toList_some,List.mem_append,List.mem_singleton,
      List.not_mem_nil,Option.mem_toList] at member ⊢
    rcases member with pending | writing | failed | none | rfl <;> tauto

theorem Moves.fewer {mayFail : Prop} {v w : Layers} (moves : Moves mayFail v w) : ∀ y ∈ w.entries, y ∈ v.entries := by
  induction moves with
  | refl => exact fun _ member => member
  | tail _ move ih => exact fun y member => ih y (move.fewer y member)

end Layers

section Surviving

/-- Some live entry is no earlier than any deletion: the content is live once all
its entries are committed. -/
def Layers.Survives (v : Layers) : Prop :=
  ∃ e ∈ v.entries, e.deleted = false ∧ ∀ d ∈ v.entries, d.deleted = true → d.timestampSeconds ≤ e.timestampSeconds

/-- Dropping entries that others hold up against does not endanger a content. -/
theorem Layers.Survives.of_unbeaten {v w : Layers} (survives : v.Survives) (fewer : ∀ x ∈ w.entries, x ∈ v.entries)
    (kept : ∀ x ∈ v.entries, ∃ y ∈ w.entries, contentInfoGreaterThanStruct x y = false) : w.Survives := by
  obtain ⟨e,member,live,latest⟩ := survives
  obtain ⟨y,there,unbeaten⟩ := kept e member
  have after := le_of_not_beaten unbeaten
  refine ⟨y,there,live_of_not_beaten unbeaten live (latest y (fewer y there)),?_⟩
  intro d inside deleted
  exact le_trans (latest d (fewer d inside) deleted) after

/-- Entries that are regrouped, with one winning over another. -/
theorem Layers.Survives.of_winner {v w : Layers} (survives : v.Survives) (old : Option Info) (x : Info)
    (rest : List Info) (before : ∀ y, y ∈ v.entries ↔ y = x ∨ old = some y ∨ y ∈ rest)
    (after : ∀ y, y ∈ w.entries ↔ y = Builder.winner old x ∨ y ∈ rest) : w.Survives := by
  refine survives.of_unbeaten ?_ ?_
  · intro y member
    rw [before]
    rcases (after y).mp member with rfl | other
    · cases old with
      | none => exact Or.inl rfl
      | some o => exact (winner_some o x).imp id fun same => Or.inl (congrArg some same.symm)
    · exact Or.inr (Or.inr other)
  · intro y member
    rcases (before y).mp member with one | two | other
    · exact ⟨_,(after _).mpr (Or.inl rfl),winner_not_beaten old x y (Or.inl one)⟩
    · exact ⟨_,(after _).mpr (Or.inl rfl),winner_not_beaten old x y (Or.inr two)⟩
    · exact ⟨y,(after y).mpr (Or.inr other),contentInfoGreaterThanStruct_irrefl y⟩

theorem Layers.Survives.of_same {v w : Layers} (survives : v.Survives)
    (same : ∀ y, y ∈ v.entries ↔ y ∈ w.entries) : w.Survives :=
  survives.of_unbeaten (fun y member => (same y).mpr member)
    fun y member => ⟨y,(same y).mp member,contentInfoGreaterThanStruct_irrefl y⟩

theorem Layers.Survives.move {mayFail : Prop} {v w : Layers} (survives : v.Survives) (move : Layers.Move mayFail v w) :
    w.Survives := by
  cases move with
  | finished x pending =>
    refine survives.of_winner v.built x (v.writing ++ v.failed ++ v.committed.toList) ?_ ?_
    · intro y
      simp only [Layers.entries,pending,Option.toList_some,List.mem_append,List.mem_singleton,Option.mem_toList]
      tauto
    · intro y
      simp only [Layers.entries,Option.toList_none,Option.toList_some,List.mem_append,List.mem_singleton,
        List.not_mem_nil]
      tauto
  | finishFailed x _ pending =>
    refine survives.of_same fun y => ?_
    simp only [Layers.entries,pending,Option.toList_none,Option.toList_some,List.mem_append,List.mem_singleton,
      List.not_mem_nil]
    tauto
  | retried before x after failed =>
    refine survives.of_winner v.built x
      (v.pending.toList ++ v.writing ++ before ++ after ++ v.committed.toList) ?_ ?_
    · intro y
      simp only [Layers.entries,failed,List.mem_append,List.mem_cons,Option.mem_toList]
      tauto
    · intro y
      simp only [Layers.entries,Option.toList_some,List.mem_append,List.mem_singleton]
      tauto
  | retryFailed before x after _ failed =>
    refine survives.of_same fun y => ?_
    simp only [Layers.entries,failed,List.mem_append,List.mem_cons,List.not_mem_nil]
    tauto
  | committed x built =>
    refine survives.of_winner v.committed x (v.pending.toList ++ v.writing ++ v.failed) ?_ ?_
    · intro y
      simp only [Layers.entries,built,Option.toList_some,List.mem_append,List.mem_singleton,Option.mem_toList]
      tauto
    · intro y
      simp only [Layers.entries,Option.toList_none,Option.toList_some,List.mem_append,List.mem_singleton,
        List.not_mem_nil]
      tauto

theorem Layers.Survives.moves {mayFail : Prop} {v w : Layers} (survives : v.Survives)
    (moves : Layers.Moves mayFail v w) : w.Survives := by
  induction moves with
  | refl => exact survives
  | tail _ move ih => exact ih.move move

theorem Layers.Survives.processed {mayFail : Prop} {v w : Layers} (survives : v.Survives)
    (processed : Layers.Processed mayFail v w) : w.Survives := by
  cases processed with
  | unaffected => exact survives
  | indexed before x after writing =>
    refine survives.of_winner v.built x
      (v.pending.toList ++ before ++ after ++ v.failed ++ v.committed.toList) ?_ ?_
    · intro y
      simp only [Layers.entries,writing,List.mem_append,List.mem_cons,Option.mem_toList]
      tauto
    · intro y
      simp only [Layers.entries,Option.toList_some,List.mem_append,List.mem_singleton]
      tauto
  | failed before x after _ writing =>
    refine survives.of_same fun y => ?_
    simp only [Layers.entries,writing,List.mem_append,List.mem_cons,List.not_mem_nil]
    tauto

/-- When nothing is left outside the committed index, its winner is live. -/
theorem Layers.Survives.committed_live {v : Layers} (survives : v.Survives) (pending : v.pending = none)
    (writing : v.writing = []) (failed : v.failed = []) (built : v.built = none) :
    ∃ e, v.committed = some e ∧ e.deleted = false := by
  obtain ⟨e,member,live,_⟩ := survives
  simp only [Layers.entries,pending,writing,failed,built,Option.toList_none,List.nil_append,Option.mem_toList] at member
  exact ⟨e,member,live⟩

end Surviving

end Vbe.Content
