import Feuer.Storage.UndisturbedWrite

/-!
# Payload writes are all-or-nothing

What the steps of one `write_payload` call do to the shard. Up to its publication a call only
evicts entries and appends metadata chunks; the publication makes all its keys visible at once. A
call that ends in another way has given its chunks back.
-/

namespace Feuer.Storage

open Lib
open Memory (sampleCandidates)

namespace DiskCacheShard

variable {context : ShardContext} {shard middle after : DiskCacheShard}
  {pending inFlight : Nat → Nat}

/-- The index, the occupied metadata slots, and the payload reservations stay as they are. Metadata
chunks are only appended. -/
structure Preserves (shard after : DiskCacheShard) : Prop where
  entries : after.entryIndex.entriesByKey = shard.entryIndex.entriesByKey
  candidates : after.entryIndex.evictionCandidates = shard.entryIndex.evictionCandidates
  slots : ∀ location, after.metadataPages.record? location = shard.metadataPages.record? location
  payloads : after.allocator.payloadChunks = shard.allocator.payloadChunks
  appended : shard.metadataPages.chunks.map MetadataChunk.reservedChunk <+:
    after.metadataPages.chunks.map MetadataChunk.reservedChunk

/-- One entry leaves: its key, its metadata slot, and its hold on its payload chunks. -/
structure Evicts (shard : DiskCacheShard) (key : ObjectKeyHash) (after : DiskCacheShard) :
    Prop where
  entry : ∃ record location, shard.entryIndex.placement? key = some (record, location) ∧
    shard.allocator.releasePayload record.payloadAddress = .ok after.allocator ∧
    ∀ slot, after.metadataPages.record? slot =
      if slot = location then none else shard.metadataPages.record? slot
  others : ∀ other, after.entryIndex.view? other =
    if other = key then none else shard.entryIndex.view? other
  layout : after.metadataPages.layout = shard.metadataPages.layout

theorem Preserves.refl (shard : DiskCacheShard) : shard.Preserves shard :=
  ⟨rfl, rfl, fun _ => rfl, rfl, List.prefix_rfl⟩

/-! ## Reservation and growth -/

theorem reserve_chunks_payloads {allocator taken : DiskChunkAllocator} {count : Nat}
    {reserved : ReservedChunks} (h : allocator.reserveChunks count = some (taken, reserved)) :
    taken.payloadChunks = allocator.payloadChunks := by
  obtain ⟨_, _, free, -, -, rfl⟩ := DiskChunkAllocator.reserve_chunks_cases h
  rfl

theorem ensure_free_slots_preserves {count : Nat}
    (h : shard.ensureFreeSlots count = .ok (some after)) : shard.Preserves after := by
  unfold ensureFreeSlots at h
  obtain ⟨grown, hgrown, h⟩ := bind_eq_ok.mp h
  rcases MetadataChunks.ensure_free_slots_cases hgrown with
    ⟨-, -, hnone⟩ | ⟨-, hsame⟩ | ⟨metadata, taken, reserved, -, hreserve, hgrowth, hsome⟩ |
      ⟨-, -, -, -, herror⟩
  · cases hnone
    cases h
  · cases hsame
    cases h
    exact .refl _
  · cases hsome
    cases h
    refine ⟨rfl, rfl, hgrowth.record, reserve_chunks_payloads hreserve, ?_⟩
    have hold := map_modify_of_eq shard.metadataPages.chunks (shard.metadataPages.chunks.length - 1)
      (fun chunk => { chunk with nextChunkAddress := reserved.diskByteRange.start })
      MetadataChunk.reservedChunk fun _ => rfl
    rw [hgrowth.chunks, List.map_append, hold]
    exact List.prefix_append _ _
  · cases herror

theorem reserve_for_payload_preserves {entryCount requiredChunks : Nat}
    {reserved : Option ReservedChunks}
    (h : shard.reserveForPayload entryCount requiredChunks = .ok (after, reserved)) :
    shard.Preserves after := by
  unfold reserveForPayload at h
  obtain ⟨grown, hgrown, h⟩ := bind_eq_ok.mp h
  cases grown with
  | none =>
      cases h
      exact .refl _
  | some grown =>
      have hpreserves := ensure_free_slots_preserves hgrown
      simp only at h
      split at h
      next =>
        cases h
        exact hpreserves
      next allocator reserved hreserve =>
        cases h
        exact ⟨hpreserves.entries, hpreserves.candidates, hpreserves.slots,
          (reserve_chunks_payloads hreserve).trans hpreserves.payloads, hpreserves.appended⟩

/-! ## Eviction -/

theorem remove_entry_effect {key : ObjectKeyHash} (h : shard.Consistent context pending inFlight)
    (hremove : shard.removeEntryFromIndex key = .ok after) :
    shard.Preserves after ∨ shard.Evicts key after := by
  obtain ⟨taken, htaken, hremove⟩ := bind_eq_ok.mp hremove
  cases taken with
  | none =>
      cases hremove
      exact .inl (.refl _)
  | some found =>
      obtain ⟨entryIndex, entry⟩ := found
      obtain ⟨hentry, hview, -⟩ := DiskEntryIndex.take_entry_some htaken
      have hplacement := DiskEntryIndex.placement?_of_lookup hentry
      obtain ⟨hslot, -⟩ := h.agreed.slot _ _ _ hplacement
      obtain ⟨metadataPages, hfree, hassigned, -, -⟩ :=
        MetadataChunks.free_entry_metadata_spec h.counted hslot
      obtain ⟨allocator, hrelease, hremove⟩ := bind_eq_ok.mp hremove
      obtain ⟨freed, hfreed, hremove⟩ := bind_eq_ok.mp hremove
      have hsame : freed = metadataPages := Except.ok.inj (hfreed.symm.trans hfree)
      cases hremove
      subst hsame
      exact .inr ⟨⟨_, _, hplacement, hrelease, hassigned.record⟩, hview, hassigned.layout⟩

theorem sample_and_evict_effect {sampleSize : Nat} {score : ObjectKeyHash → Nat → Int}
    {budget remaining : EvictionBudget} {sampled : Bool}
    (h : shard.Consistent context pending inFlight)
    (hsample : shard.sampleAndEvictEntry sampleSize score budget =
      .ok (sampled, after, remaining)) :
    shard.Preserves after ∨ ∃ key, shard.Evicts key after := by
  obtain rfl | ⟨start, rfl | ⟨key, hremoved⟩⟩ := sample_and_evict_removes hsample
  · exact .inl (.refl _)
  · exact .inl ⟨rfl, rfl, fun _ => rfl, rfl, List.prefix_rfl⟩
  · rcases remove_entry_effect (h.resample start) hremoved with hsame | hevicts
    · exact .inl ⟨hsame.entries, hsame.candidates, hsame.slots, hsame.payloads, hsame.appended⟩
    · exact .inr ⟨key, hevicts.entry, hevicts.others, hevicts.layout⟩

end DiskCacheShard

/-! ## The steps of a call -/

namespace ShardState

variable {context : ShardContext} {state next : ShardState context} {id : Nat}
  {call : WriteCall context} {action : Action context}

/-- A step of a call that publishes: every key of its batch is indexed. -/
structure Publishes (call : WriteCall context) (phase : WritePhase) (next : ShardState context) :
    Prop where
  before : ∃ chunks, call.phase = .publishing chunks
  after : ∃ count, phase = .finished (.published count)
  indexed : ∀ entry ∈ call.batch.entries,
    (next.shard.entryIndex.entriesByKey.lookup entry.key).isSome

/-- A step of a call that publishes nothing: it evicts an entry or leaves all entries alone, and
keeps its reservation or ends with every chunk of it free. -/
structure Withholds (state : ShardState context) (call : WriteCall context)
    (action : Action context) (phase : WritePhase) (next : ShardState context) : Prop where
  shard : state.shard.Preserves next.shard ∨
    (∃ id score, action = .evict id score) ∧ ∃ key, state.shard.Evicts key next.shard
  chunks : ∀ chunks, call.phase.chunks? = some chunks →
    phase.chunks? = some chunks ∨
      (∃ result, phase = .finished result) ∧ ∀ chunk, chunks.chunkNumbers.start ≤ chunk →
        chunk < chunks.chunkNumbers.stop → 0 < next.shard.allocator.free.owned chunk

/-- The dropped chunks are free. -/
theorem Consistent.drop_frees (h : state.Consistent) (hcall : state.calls.lookup id = some call)
    {chunks : ReservedChunks} (hchunks : call.phase.chunks? = some chunks) (chunk : Nat)
    (hstart : chunks.chunkNumbers.start ≤ chunk) (hstop : chunk < chunks.chunkNumbers.stop) :
    0 < (state.shard.allocator.drop chunks).free.owned chunk := by
  have howned : ∀ chunk, call.owned chunk = chunks.chunkNumbers.covers chunk := by
    intro chunk
    simp only [WriteCall.owned, hchunks]
  have hbeside := (h.shard_beside hcall).accounted.accounts
  have hdisjoint : ∀ chunk, state.shard.allocator.free.owned chunk +
      chunks.chunkNumbers.covers chunk ≤ 1 := by
    intro chunk
    have hpartition := hbeside.partition chunk
    have hcovers := context.chunks.covers_le_one chunk
    simp only [howned] at hpartition
    omega
  have hrelease := (FreeChunks.release_spec hbeside.separated
    ((h.calls id call hcall).chunks_lt hchunks) hdisjoint).2 chunk
  have hcovered := Range.covers_of_mem hstart hstop
  -- The gauges that the drop counts down do not take part in the ownership.
  show 0 < FreeChunks.owned (FreeChunks.release { state.shard.allocator.free with metrics := _ }
    chunks.chunkNumbers) chunk
  have hsame : ∀ metrics, FreeChunks.owned (FreeChunks.release
      { state.shard.allocator.free with metrics } chunks.chunkNumbers) chunk =
        (state.shard.allocator.free.release chunks.chunkNumbers).owned chunk := fun _ => rfl
  rw [hsame]
  omega

/-- A step of a call publishes the whole batch or nothing of it. -/
theorem Moves.all_or_nothing {phase : WritePhase} (h : state.Consistent)
    (hcall : state.calls.lookup id = some call)
    (hmoves : state.Moves id call action phase next) :
    Publishes call phase next ∨ state.Withholds call action phase next := by
  cases hmoves with
  | idle => exact .inr ⟨.inl (.refl _), fun _ hheld => .inl hheld⟩
  | reserved _ _ _ _ hphase hreserve | refused _ _ _ hphase hreserve
  | oversized _ _ _ hphase hreserve =>
      refine .inr ⟨.inl (DiskCacheShard.reserve_for_payload_preserves hreserve), ?_⟩
      rw [hphase]
      intro chunks hchunks
      cases hchunks
  | evicted _ _ _ _ _ _ hphase hevict =>
      refine .inr ⟨(DiskCacheShard.sample_and_evict_effect h.shard hevict).imp_right fun hkey =>
        ⟨⟨_, _, rfl⟩, hkey⟩, ?_⟩
      rw [hphase]
      intro chunks hchunks
      cases hchunks
  | submitted _ _ _ _ hphase | failed _ _ _ _ hphase | cancelled _ _ _ _ hphase
  | unpublished _ _ hphase =>
      refine .inr ⟨.inl (.refl _), fun held hheld => .inl ?_⟩
      rw [hphase] at hheld
      exact hheld
  | completed _ _ _ _ hphase =>
      refine .inr ⟨.inl (.refl _), fun held hheld => .inl ?_⟩
      rw [hphase] at hheld
      split
      · exact hheld
      · exact hheld
  | published _ chunks _ _ hphase hpublish =>
      exact .inl ⟨⟨chunks, hphase⟩, ⟨_, rfl⟩,
        (DiskCacheShard.publish_payload_index hpublish).2.2⟩
  | dropped _ chunks result hphase =>
      refine .inr ⟨.inl ⟨rfl, rfl, fun _ => rfl, rfl, List.prefix_rfl⟩, fun held hheld => ?_⟩
      refine .inr ⟨⟨_, rfl⟩, ?_⟩
      rw [hphase] at hheld
      cases hheld
      exact h.drop_frees hcall (by rw [hphase]; rfl)

/-- Payload writes are all-or-nothing. In every state that a session reaches, whatever the other
calls do, a step of a call either publishes, and then every key of its batch is indexed, or it
publishes nothing: apart from an entry that it evicts and metadata chunks that it appends, it
leaves the index, the occupied metadata slots, and the payload reservations as they are. A call
keeps its reservation from step to step, and if it ends without a publication all its chunks are
free. -/
theorem session_write_all_or_nothing (context : ShardContext) {read : ChunkReader}
    (hfits : Representable context.hash read) (file : BackingFile)
    (actions : List (Action context)) (state : ShardState context)
    (hsession : session context read file actions = .ok state) (id : Nat)
    (call : WriteCall context) (hcall : state.calls.lookup id = some call)
    (action : Action context) (next : ShardState context)
    (hstep : state.step action = .ok next) :
    (action.id? ≠ some id → next.calls.lookup id = some call) ∧
    (action.id? = some id → ∃ phase, next.calls.lookup id = some { call with phase } ∧
      (Publishes call phase next ∨ state.Withholds call action phase next)) := by
  have hconsistent := (session_spec hfits file actions).of_ok hsession
  rcases (step_performs hstep).call_cases hcall with ⟨hid, phase, hmoves⟩ | ⟨hid, hkept⟩
  · refine ⟨fun hne => absurd hid hne, fun _ =>
      ⟨phase, ?_, hmoves.all_or_nothing hconsistent hcall⟩⟩
    rw [hmoves.calls hcall, if_pos rfl]
  · exact ⟨fun _ => hkept, fun heq => absurd heq hid⟩

/-- A call that publishes, and one whose payload write fails, at the step that ends it. -/
theorem session_write_all_or_nothing_ends :
    (∃ (state next : ShardState .tiny) (chunks : ReservedChunks),
      session .tiny zeroReader ⟨fun _ => Page.zero, []⟩
        ([.call 0 tinyBatch, .reserve 0] ++ chunkActions 0 0) = .ok state ∧
      state.step (.publish 0) = .ok next ∧
      (next.shard.entryIndex.entriesByKey.lookup 3).isSome ∧
      ∃ phase, next.calls.lookup 0 = some ⟨tinyBatch, phase⟩ ∧
        (Publishes ⟨tinyBatch, .publishing chunks⟩ phase next ∨
          state.Withholds ⟨tinyBatch, .publishing chunks⟩ (.publish 0) phase next)) ∧
    ∃ (state next : ShardState .tiny) (chunks : ReservedChunks),
      session .tiny zeroReader ⟨fun _ => Page.zero, []⟩
        [.call 0 tinyBatch, .reserve 0, .fail 0] = .ok state ∧
      state.step (.drop 0) = .ok next ∧
      ∃ phase, next.calls.lookup 0 = some ⟨tinyBatch, phase⟩ ∧
        (Publishes ⟨tinyBatch, .dropping chunks .failed⟩ phase next ∨
          state.Withholds ⟨tinyBatch, .dropping chunks .failed⟩ (.drop 0) phase next) := by
  constructor
  · obtain ⟨state, next, chunks, hsession, hcall, hpublish, -, hentry, -⟩ := session_tiny_write
    refine ⟨state, next, chunks, hsession, hpublish, hentry, ?_⟩
    exact (session_write_all_or_nothing .tiny (representable_zero_reader _) _ _ state hsession 0 _
      hcall (.publish 0) next hpublish).2 rfl
  · obtain ⟨reserved, chunks, hsession, hcall⟩ := session_tiny_reserved
    let state : ShardState .tiny :=
      reserved.setPhase 0 ⟨tinyBatch, .writing chunks 0 none⟩ (.dropping chunks .failed)
    have hfail : reserved.step (.fail 0) = .ok state := by
      simp only [step, Action.id?, hcall, callStep]
      rfl
    have hfailed : session .tiny zeroReader ⟨fun _ => Page.zero, []⟩
        ([.call 0 tinyBatch, .reserve 0] ++ [.fail 0]) = .ok state := by
      obtain ⟨opened, hopened, hrun⟩ := bind_eq_ok.mp hsession
      rw [session, hopened, ok_bind, run_append, hrun, ok_bind, run, hfail]
      rfl
    have hdropping : state.calls.lookup 0 = some ⟨tinyBatch, .dropping chunks .failed⟩ :=
      Finmap.lookup_insert _
    have hdrop : ∃ next, state.step (.drop 0) = .ok next := by
      simp only [step, Action.id?, hdropping, callStep]
      exact ⟨_, rfl⟩
    obtain ⟨next, hnext⟩ := hdrop
    refine ⟨state, next, chunks, hfailed, hnext, ?_⟩
    exact (session_write_all_or_nothing .tiny (representable_zero_reader _) _ _ state hfailed 0 _
      hdropping (.drop 0) next hnext).2 rfl

end ShardState

end Feuer.Storage
