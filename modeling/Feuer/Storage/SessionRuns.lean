import Feuer.Storage.PageCodec
import Feuer.Storage.SessionInvariant

/-!
# Runs of a recovered shard

A shard is recovered from any file content, and any interleaving of the steps of its calls and of
its metadata rounds follows. Every state that is reached is consistent.
-/

namespace Feuer.Storage

open Lib

variable {context : ShardContext}

/-- In a shard whose chunk positions fit in a `u32`, nothing panics. -/
theorem ShardContext.exists_ok {α : Type} {good : α → Prop} {result : Except Panic α}
    (hcount : context.chunkCount ≤ 2 ^ 32)
    (h : Outcome (Panic.Unindexable context.chunkCount) good result) :
    ∃ value, result = .ok value ∧ good value :=
  (h.weaken fun _ hwide => absurd hwide.2 (Nat.not_lt.mpr hcount)).exists_ok

namespace ShardState

/-- A consistent shard without calls is a consistent state. -/
theorem opened_consistent {shard : DiskCacheShard} {file : BackingFile}
    (hshard : shard.Consistent context DiskCacheShard.noPending fun _ => 0)
    (hdirty : ∀ page ∈ shard.metadataPages.dirtyPages, shard.metadataPages.HasPage page) :
    (opened shard file : ShardState context).Consistent where
  shard := hshard
  calls id call hcall := by simp [opened] at hcall
  dirty := hdirty
  round writes hwrites := by cases hwrites

/-- The loaded chain has the pages that recovery marks. -/
theorem dirty_of_repaired {read : ChunkReader} {loaded metadata : MetadataChunks}
    (hrepaired : Repaired (chainOf context read) loaded) (hlayout : metadata.layout = loaded.layout)
    (hdirty : metadata.dirtyPages = loaded.dirtyPages) :
    ∀ page ∈ metadata.dirtyPages, metadata.HasPage page := by
  intro page hpage
  rw [hdirty] at hpage
  obtain ⟨-, hsome, rfl⟩ := (hrepaired.dirty page).mp hpage
  have hlength : metadata.chunks.length = (chainOf context read).chunks.length := by
    rw [← MetadataChunks.length_layout, hlayout, MetadataChunks.length_layout, hrepaired.length_eq]
  have hpos := List.length_pos_of_ne_nil hsome
  refine ⟨?_, (by decide : entryMetadataPagesPerChunk < pagesPerChunk)⟩
  dsimp only
  omega

theorem recover_of_shard {read : ChunkReader} {file : BackingFile} {shard : DiskCacheShard}
    (h : DiskCacheShard.recoverShard context read = .ok shard) :
    recover context read file = .ok (opened shard file) := by
  rw [recover, h]
  rfl

/-- A recovered shard is consistent. -/
theorem recover_spec {read : ChunkReader} (hfits : Representable context.hash read)
    (file : BackingFile) :
    Outcome (Panic.Unindexable context.chunkCount) Consistent (recover context read file) := by
  refine (DiskCacheShard.recover_shard_spec hfits).bind ?_
  rintro shard ⟨hshard, loaded, hrepaired, hlayout, hdirty⟩
  exact opened_consistent hshard (dirty_of_repaired hrepaired hlayout hdirty)

/-- Every run of a consistent state stays consistent. -/
theorem run_spec {state : ShardState context} (h : state.Consistent)
    (actions : List (Action context)) :
    Outcome (Panic.Unindexable context.chunkCount) Consistent (run step state actions) :=
  run_outcome (fun _ => True)
    (fun _ action hstate _ => (step_spec hstate action).mono fun _ hnext => hnext.1) h
    fun _ _ => trivial

/-- The states that a recovered shard reaches. -/
def session (context : ShardContext) (read : ChunkReader) (file : BackingFile)
    (actions : List (Action context)) : Except Panic (ShardState context) :=
  recover context read file >>= fun state => run step state actions

/-- Every session is consistent, from any file. -/
theorem session_spec {read : ChunkReader} (hfits : Representable context.hash read)
    (file : BackingFile) (actions : List (Action context)) :
    Outcome (Panic.Unindexable context.chunkCount) Consistent
      (session context read file actions) :=
  (recover_spec hfits file).bind fun _ hstate => run_spec hstate actions

end ShardState

end Feuer.Storage
