import Feuer.Storage.IndexContents

/-!
# Generations of a key

A key that is indexed keeps its entry until it is removed, and it is indexed anew only by a
publication. The publications of a key in the log therefore number its generations: while a key
stays indexed, its generation and its entry stay what they are, except for the shared read.
-/

namespace Feuer.Storage

open Lib

variable {context : ShardContext}

/-- How often a key was published. -/
def generationOf (log : List Event) (key : ObjectKeyHash) : Nat :=
  (publicationsOf log).countP fun found => found.1.key = key

/-- What a step can do to the entry of one key, and the publications that it adds to the log. -/
inductive Renewal (before after : Option DiskEntry) : Nat → Prop where
  | kept (h : after = before) : Renewal before after 0
  | removed (h : after = none) : Renewal before after 0
  /-- Only a key that is not indexed is published, and nobody reads its new entry. -/
  | published (hbefore : before = none) (view : DiskEntry) (hafter : after = some view)
      (hread : view.sharedRead = none) : Renewal before after 1

namespace DiskCacheShard

variable {shard after : DiskCacheShard} {published : List EntryMetadata}

/-- The publication loop adds a key that is not indexed at most once, and leaves the others. -/
theorem Publishing.renewal {address : Nat} {entries : List WriteEntry}
    (h : Publishing address after shard entries published) (key : ObjectKeyHash) :
    Renewal (shard.entryIndex.view? key) (after.entryIndex.view? key)
      (published.countP fun record => record.key = key) := by
  suffices hrenewal : after.entryIndex.view? key = shard.entryIndex.view? key ∧
        published.countP (fun record => record.key = key) = 0 ∨
      shard.entryIndex.view? key = none ∧ published.countP (fun record => record.key = key) = 1 ∧
        ∃ view, after.entryIndex.view? key = some view ∧ view.sharedRead = none by
    rcases hrenewal with ⟨hview, hcount⟩ | ⟨hnone, hcount, view, hview, hread⟩
    · rw [hcount]
      exact .kept hview
    · rw [hcount]
      exact .published hnone view hview hread
  induction h with
  | done => exact .inl ⟨rfl, rfl⟩
  | skipped _ _ _ _ _ _ _ _ ih => exact ih
  | pushed shard _ location entry rest newer habsent _ _ ih =>
      rw [DiskEntryIndex.view?_push] at ih
      by_cases hkey : key = entry.key
      · -- The key is indexed from here on, so the rest of the loop skips it.
        subst hkey
        rw [if_pos rfl] at ih
        rcases ih with ⟨hview, hcount⟩ | ⟨hnone, -⟩
        · refine .inr ⟨by rw [DiskEntryIndex.view?, habsent]; rfl, ?_, _, hview, rfl⟩
          rw [List.countP_cons_of_pos (by simp [WriteEntry.record]), hcount]
        · cases hnone
      · rw [if_neg hkey] at ih
        have hother : entry.key ≠ key := Ne.symm hkey
        rw [List.countP_cons_of_neg (by simp [WriteEntry.record, hother])]
        exact ih

theorem publish_payload_renewal {chunks : ReservedChunks} {entries : List WriteEntry}
    (h : shard.publishPayload chunks entries = .ok (some (after, published)))
    (key : ObjectKeyHash) :
    Renewal (shard.entryIndex.view? key) (after.entryIndex.view? key)
      (published.countP fun record => record.key = key) := by
  obtain ⟨grown, final, hgrown, hsteps, rfl⟩ := publish_payload_cases h
  rw [← ensure_free_slots_index hgrown]
  exact hsteps.renewal key

end DiskCacheShard

namespace ShardState

variable {state next : ShardState context} {action : Action context}

def generation (state : ShardState context) (key : ObjectKeyHash) : Nat :=
  generationOf state.file.log key

/-- What a step that shares no read can do to the entry and the generation of a key. -/
theorem step_renewal (hshare : ∀ key read, action ≠ .share key read)
    (h : state.step action = .ok next) (key : ObjectKeyHash) :
    ∃ count, next.generation key = state.generation key + count ∧
      Renewal (state.shard.entryIndex.view? key) (next.shard.entryIndex.view? key) count := by
  by_cases hpublish : ∃ id, action = .publish id
  · obtain ⟨id, rfl⟩ := hpublish
    cases step_performs h with
    | idle => exact ⟨0, rfl, .kept rfl⟩
    | persisted _ _ _ _ hid | round _ _ _ hid => cases hid
    | moved _ _ call phase _ _ _ hmoves =>
        cases hmoves with
        | idle | unpublished => exact ⟨0, rfl, .kept rfl⟩
        | published _ chunks shard published _ hpublish =>
            refine ⟨_, ?_, DiskCacheShard.publish_payload_renewal hpublish key⟩
            show generationOf (state.advance _ _).file.log key = _
            rw [generationOf, publications_of_advance, publications_of_publication,
              List.countP_append, List.countP_map, Nat.add_comm]
            rfl
  · have hnone : ∀ id, action ≠ .publish id := fun id heq => hpublish ⟨id, heq⟩
    refine ⟨0, congrArg _ ((step_performs h).publications hnone), ?_⟩
    cases hview : next.shard.entryIndex.view? key with
    | none => exact .removed rfl
    | some view =>
        rcases (step_origins h).entries key view hview with hsame | hadds
        · exact .kept hsame.symm
        · cases hadds with
          | shared => exact absurd rfl (hshare _ _)
          | published => exact absurd rfl (hnone _)

/-- Sharing a read changes nothing but the entry's read. -/
theorem step_share_views {key : ObjectKeyHash} {read : Nat} {entry : DiskEntry}
    (hentry : state.shard.entryIndex.entriesByKey.lookup key = some entry)
    (h : state.step (.share key read) = .ok next) :
    (∀ other, next.shard.entryIndex.view? other =
      if other = key then some { entry.placed 0 with sharedRead := some read }
      else state.shard.entryIndex.view? other) ∧
    ∀ other, next.generation other = state.generation other := by
  have hgeneration := (step_performs h).publications (by simp)
  cases h
  refine ⟨fun other => ?_, fun other => congrArg _ hgeneration⟩
  show (state.shard.shareRead key read).entryIndex.view? other = _
  simp only [DiskCacheShard.shareRead, hentry, DiskEntryIndex.view?, FiniteMap.lookup_insert_eq]
  split <;> rfl

end ShardState

end Feuer.Storage
