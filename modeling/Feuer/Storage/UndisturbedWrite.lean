import Feuer.Storage.FreshShard
import Feuer.Storage.IndexContents
import Feuer.Storage.SmallEntryBuffer

/-!
# A payload write that nothing disturbs

A call whose payload fits in one chunk reserves it, submits its request, waits until every page is
on the file, and publishes. If the reservation succeeds and no other step comes in between, the call
indexes every key of its batch. Every buffer of small entries is written this way.
-/

namespace Feuer.Storage

open Lib

variable {context : ShardContext}

/-- A page of the request reaches the file, or was there. No publication is logged. -/
theorem WriteRequest.persist_within (request : WriteRequest) {position : Nat}
    (hposition : position < request.pages.length) (origin : Origin) (file : BackingFile) :
    (request.persist position origin file).1 =
        { request with pending := request.pending.erase position } ∧
      publicationsOf (request.persist position origin file).2.log = publicationsOf file.log := by
  unfold persist
  rw [List.getElem?_eq_getElem hposition]
  dsimp only
  split
  next => exact ⟨rfl, rfl⟩
  next habsent => exact ⟨by rw [Finset.erase_eq_of_notMem habsent], rfl⟩

namespace DiskCacheShard

variable {shard after : DiskCacheShard} {chunks : ReservedChunks}

theorem ensure_free_slots_enough {count : Nat} (h : count ≤ shard.metadataPages.freeSlotCount) :
    shard.ensureFreeSlots count = .ok (some shard) := by
  unfold ensureFreeSlots MetadataChunks.ensureFreeSlots
  rw [if_neg (Nat.not_lt.mpr h)]
  rfl

/-- A successful reservation has room for the metadata of the entries. -/
theorem reserve_for_payload_slots {inFlight : Nat → Nat} {entryCount requiredChunks : Nat}
    (h : shard.Consistent context noPending inFlight) (hcount : entryCount ≤ pagesPerChunk)
    (hreserve : shard.reserveForPayload entryCount requiredChunks = .ok (after, some chunks)) :
    entryCount ≤ after.metadataPages.freeSlotCount := by
  unfold reserveForPayload at hreserve
  obtain ⟨grown, hgrown, hreserve⟩ := bind_eq_ok.mp hreserve
  cases grown with
  | none => cases hreserve
  | some grown =>
      have hroom := ((ensure_free_slots_spec h entryCount).of_ok hgrown grown rfl).2.2.2.2.1
      simp only at hreserve
      split at hreserve
      next => cases hreserve
      next =>
        cases hreserve
        exact hroom (hcount.trans pages_per_chunk_le)

/-- With room for the metadata a publication takes place. -/
theorem publish_payload_some {good : Option (DiskCacheShard × List EntryMetadata) → Prop}
    {entries : List WriteEntry} (hcount : context.chunkCount ≤ 2 ^ 32)
    (hslots : entries.length ≤ shard.metadataPages.freeSlotCount)
    (hspec : Outcome (Panic.Unindexable context.chunkCount) good
      (shard.publishPayload chunks entries)) :
    ∃ after published, shard.publishPayload chunks entries = .ok (some (after, published)) := by
  obtain ⟨result, hpublish, -⟩ := ShardContext.exists_ok hcount hspec
  cases result with
  | some found => exact ⟨found.1, found.2, hpublish⟩
  | none =>
      unfold publishPayload at hpublish
      rw [ensure_free_slots_enough hslots, ok_bind] at hpublish
      obtain ⟨found, -, hnone⟩ := bind_eq_ok.mp hpublish
      cases hnone

end DiskCacheShard

namespace ShardState

variable {state next : ShardState context} {id request : Nat} {batch : PayloadBatch context}
  {chunks : ReservedChunks}

/-- The request of a call's only chunk is submitted, persisted and completed. -/
def chunkActions (id request : Nat) : List (Action context) :=
  .submit id request :: ((List.range pagesPerChunk).map (.persist request) ++ [.complete id])

/-- A call of `write_payload` with a payload of one chunk. -/
def payloadActions (id request : Nat) (batch : PayloadBatch context) : List (Action context) :=
  [.call id batch, .reserve id] ++ chunkActions id request ++ [.publish id]

/-- Pages of a request reach the file one after the other. -/
theorem run_persist (positions : List Nat) {found : WriteRequest}
    (hfound : state.requests.lookup request = some found)
    (hpages : ∀ position ∈ positions, position < found.pages.length) :
    ∃ requests file, run step state (positions.map (.persist request)) =
        .ok { state with requests, file } ∧
      requests.lookup request =
        some { found with pending := found.pending \ positions.toFinset } ∧
      publicationsOf file.log = publicationsOf state.file.log := by
  induction positions generalizing state found with
  | nil => exact ⟨state.requests, state.file, rfl, by simpa using hfound, rfl⟩
  | cons position positions ih =>
      obtain ⟨hrequest, hlog⟩ := found.persist_within
        (hpages position List.mem_cons_self) .payload state.file
      let next : ShardState context := { state with
        requests := state.requests.insert request
          { found with pending := found.pending.erase position }
        file := (found.persist position .payload state.file).2 }
      have hstep : state.step (.persist request position) = .ok next := by
        simp only [step, hfound, next]
        rw [← hrequest]
      have hnext : next.requests.lookup request =
          some { found with pending := found.pending.erase position } := Finmap.lookup_insert _
      obtain ⟨requests, file, hrun, hleft, hsame⟩ := ih hnext
        fun other hother => hpages other (List.mem_cons_of_mem _ hother)
      refine ⟨requests, file, ?_, ?_, hsame.trans hlog⟩
      · rw [List.map_cons, run, hstep, ok_bind]
        exact hrun
      · rw [hleft, List.toFinset_cons, Finset.sdiff_insert, Finset.erase_sdiff_comm]

/-- The payload of a call with one chunk is written, and the call is about to publish. -/
theorem run_chunk_actions (hcall : state.calls.lookup id = some ⟨batch, .writing chunks 0 none⟩)
    (hone : chunks.chunkCount = 1) (hnew : state.requests.lookup request = none) :
    ∃ requests file, run step state (chunkActions id request) =
        .ok ({ state with requests, file }.setPhase id ⟨batch, .writing chunks 0 none⟩
          (.publishing chunks)) ∧
      publicationsOf file.log = publicationsOf state.file.log := by
  have hsubmit : state.step (.submit id request) =
      .ok (state.submitStep id ⟨batch, .writing chunks 0 none⟩ chunks 0 request) := by
    simp only [step, Action.id?, hcall, callStep, hnew, Option.isNone_none, if_true]
  have hlength : (batch.chunkPages 0).length = pagesPerChunk := by
    simp [PayloadBatch.chunkPages]
  obtain ⟨requests, file, hpersist, hdone, hlog⟩ := @run_persist _
    (state.submitStep id ⟨batch, .writing chunks 0 none⟩ chunks 0 request) request
    (List.range pagesPerChunk) _ (Finmap.lookup_insert _) fun position hposition => by
      rw [WriteRequest.new, hlength]
      exact List.mem_range.mp hposition
  have hempty : (WriteRequest.new ((chunks.chunkNumbers.start + 0) * pagesPerChunk)
      (batch.chunkPages 0)).pending \ (List.range pagesPerChunk).toFinset = ∅ := by
    rw [WriteRequest.new, hlength, List.toFinset_range, Finset.sdiff_self]
  rw [hempty] at hdone
  let written : ShardState context := { state.submitStep id
    ⟨batch, .writing chunks 0 none⟩ chunks 0 request with requests, file }
  have hwaits : written.calls.lookup id = some ⟨batch, .writing chunks 0 (some request)⟩ :=
    Finmap.lookup_insert _
  have hcomplete : written.step (.complete id) = .ok ({ written with
      requests := requests.erase request }.setPhase id
        ⟨batch, .writing chunks 0 (some request)⟩ (.publishing chunks)) := by
    simp only [step, Action.id?, hwaits, callStep, completeStep, hone]
    rw [show written.requests.lookup request = _ from hdone]
    rfl
  refine ⟨requests.erase request, file, ?_, hlog⟩
  rw [chunkActions, run, hsubmit, ok_bind, run_append, hpersist, ok_bind, run, hcomplete,
    ok_bind, run]
  simp only [setPhase, submitStep, Finmap.insert_insert, written]

/-- What an undisturbed write leaves: the call has returned, and the keys that were not indexed have
entries of its batch, with a publication of their bytes. -/
structure Wrote (state : ShardState context) (id : Nat) (batch : PayloadBatch context)
    (next : ShardState context) : Prop where
  consistent : next.Consistent
  call : ∃ count, ∀ other, next.calls.lookup other =
    if other = id then some ⟨batch, .finished (.published count)⟩ else state.calls.lookup other
  round : next.round = state.round
  indexed : ∀ entry ∈ batch.entries,
    state.shard.entryIndex.entriesByKey.lookup entry.key = none →
      ∃ written ∈ batch.entries, written.key = entry.key ∧ ∃ address location,
        next.shard.entryIndex.placement? entry.key = some (written.record address, location) ∧
        (written.record address, batch.slice written.bufferOffset written.payloadLen) ∈
          publicationsOf next.file.log

/-- A call that is about to publish, with room for the metadata of its entries. -/
theorem step_publish (h : state.Consistent) (hcount : context.chunkCount ≤ 2 ^ 32)
    (hcall : state.calls.lookup id = some ⟨batch, .publishing chunks⟩)
    (hslots : batch.entries.length ≤ state.shard.metadataPages.freeSlotCount) :
    ∃ next, state.step (.publish id) = .ok next ∧ state.Wrote id batch next := by
  have hvalid := h.calls id _ hcall
  have hbeside := h.shard_beside hcall
  simp only [WriteCall.owned, WritePhase.chunks?] at hbeside
  have hspec := DiskCacheShard.publish_payload_spec hbeside (hvalid.chunks_lt rfl) batch.nonempty
    batch.count_le fun entry hentry => hvalid.placed rfl hentry
  obtain ⟨shard, published, hpublish⟩ := DiskCacheShard.publish_payload_some hcount hslots hspec
  have hstep : state.step (.publish id) = .ok ((state.advance shard
      (publication context batch chunks published)).setPhase id ⟨batch, .publishing chunks⟩
        (.finished (.published published.length))) := by
    simp only [step, Action.id?, hcall, callStep, publishStep, hpublish, ok_bind]
    rfl
  obtain ⟨-, hadvances, -, -, -, -⟩ := hspec.of_ok hpublish shard published rfl
  refine ⟨_, hstep, ((step_spec h _).of_ok hstep).1,
    ⟨published.length, fun other => FiniteMap.lookup_insert_eq _ _ _ _⟩, rfl,
    fun entry hentry habsent => ?_⟩
  -- The key is indexed now, so its entry is one of those that were published.
  obtain ⟨-, hrecords, hindexed⟩ := DiskCacheShard.publish_payload_index hpublish
  obtain ⟨found, hfound⟩ := Option.isSome_iff_exists.mp (hindexed entry hentry)
  have hplacement := DiskEntryIndex.placement?_of_lookup hfound
  have hnone := DiskEntryIndex.placement?_eq_none.mpr habsent
  have hrecord : found.record entry.key ∈ published := by
    rcases hadvances.entries entry.key _ _ hplacement with ⟨hold, -⟩ | hnew
    · rw [hnone] at hold
      cases hold
    · exact hnew
  obtain ⟨written, hwritten, hsame⟩ := hrecords _ hrecord
  refine ⟨written, hwritten, (congrArg EntryMetadata.key hsame).symm,
    chunks.diskByteRange.start, found.metadata, ?_, ?_⟩
  · rw [← hsame]
    exact hplacement
  · show _ ∈ publicationsOf (state.advance shard _).file.log
    rw [publications_of_advance, publications_of_publication]
    refine List.mem_append_left _ (List.mem_map.mpr ⟨_, hrecord, ?_⟩)
    rw [hsame]
    simp only [WriteEntry.record, Nat.add_sub_cancel_left]

/-- A call that gets its chunks is about to write them. -/
theorem run_reserve (hid : state.calls.lookup id = none) {shard : DiskCacheShard}
    (hreserve : state.shard.reserveForPayload batch.entries.length batch.requiredChunks =
      .ok (shard, some chunks)) :
    run step state [.call id batch, .reserve id] = .ok ((state.advance shard []).setPhase id
      ⟨batch, .reserving .full⟩ (.writing chunks 0 none)) := by
  have hcalled : (state.called id batch).calls.lookup id = some ⟨batch, .reserving .full⟩ :=
    Finmap.lookup_insert _
  have hstep : (state.called id batch).step (.reserve id) = .ok (((state.called id batch).advance
      shard []).setPhase id ⟨batch, .reserving .full⟩ (.writing chunks 0 none)) := by
    simp only [step, Action.id?, hcalled, callStep, reserveStep]
    rw [show (state.called id batch).shard.reserveForPayload batch.entries.length
      batch.requiredChunks = .ok (shard, some chunks) from hreserve]
    rfl
  rw [run, step_call hid, ok_bind, run, hstep, ok_bind, run]
  simp only [called, setPhase, advance, Finmap.insert_insert]

/-- A call that gets its chunk and that nothing disturbs is about to publish, with room for the
metadata of its entries. -/
theorem run_until_publish (h : state.Consistent) (hone : batch.requiredChunks = 1)
    (hid : state.calls.lookup id = none) (hnew : state.requests.lookup request = none)
    {shard : DiskCacheShard} (hreserve : state.shard.reserveForPayload batch.entries.length
      batch.requiredChunks = .ok (shard, some chunks)) :
    ∃ written, run step state ([.call id batch, .reserve id] ++ chunkActions id request) =
        .ok written ∧
      written.calls.lookup id = some ⟨batch, .publishing chunks⟩ ∧
      batch.entries.length ≤ written.shard.metadataPages.freeSlotCount ∧
      written.round = state.round ∧ written.shard.entryIndex = state.shard.entryIndex ∧
      ∀ other, other ≠ id → written.calls.lookup other = state.calls.lookup other := by
  let reserved : ShardState context := (state.advance shard []).setPhase id
    ⟨batch, .reserving .full⟩ (.writing chunks 0 none)
  have hreserved : run step state [.call id batch, .reserve id] = .ok reserved :=
    run_reserve hid hreserve
  have hcall : reserved.calls.lookup id = some ⟨batch, .writing chunks 0 none⟩ :=
    Finmap.lookup_insert _
  have hchunks : chunks.chunkCount = 1 := by
    have hlength := (((run_spec h _).of_ok hreserved).calls id _ hcall).length chunks rfl
    rw [ReservedChunks.chunkCount, hlength, Nat.add_sub_cancel_left]
    exact hone
  obtain ⟨requests, file, hrun, -⟩ := run_chunk_actions hcall hchunks hnew
  refine ⟨{ reserved with requests, file }.setPhase id ⟨batch, .writing chunks 0 none⟩
    (.publishing chunks), ?_, Finmap.lookup_insert _, ?_, rfl, ?_, fun other hother => ?_⟩
  · rw [run_append, hreserved, ok_bind, hrun]
  · exact DiskCacheShard.reserve_for_payload_slots h.shard batch.count_le hreserve
  · exact DiskCacheShard.reserve_for_payload_index hreserve
  · simp only [setPhase, advance, reserved, FiniteMap.lookup_insert_eq, if_neg hother]

/-- A write that gets its chunk and that nothing disturbs publishes its entries. -/
theorem run_payload_actions (h : state.Consistent) (hcount : context.chunkCount ≤ 2 ^ 32)
    (hone : batch.requiredChunks = 1) (hid : state.calls.lookup id = none)
    (hnew : state.requests.lookup request = none) {shard : DiskCacheShard}
    (hreserve : state.shard.reserveForPayload batch.entries.length batch.requiredChunks =
      .ok (shard, some chunks)) :
    ∃ next, run step state (payloadActions id request batch) = .ok next ∧
      state.Wrote id batch next := by
  obtain ⟨written, hrun, hcall, hslots, hround, hindex, hothers⟩ :=
    run_until_publish h hone hid hnew hreserve
  obtain ⟨next, hpublish, hwrote⟩ :=
    step_publish ((run_spec h _).of_ok hrun) hcount hcall hslots
  refine ⟨next, ?_, hwrote.consistent, ?_, hwrote.round.trans hround, ?_⟩
  · rw [payloadActions, run_append, hrun, ok_bind, run, hpublish]
    rfl
  · obtain ⟨count, hcalls⟩ := hwrote.call
    refine ⟨count, fun other => ?_⟩
    rw [hcalls]
    split
    next => rfl
    next hother => exact hothers other hother
  · rw [← hindex]
    exact hwrote.indexed

/-- The first write to a shard of a zeroed file gets its chunk. -/
theorem first_reserve (hcount : context.chunkCount ≤ 2 ^ 32) (hroom : 2 ≤ context.chunkCount)
    (hone : batch.requiredChunks = 1) (file : BackingFile) :
    ∃ shard, DiskCacheShard.recoverShard context zeroReader = .ok shard ∧ shard.Fresh context ∧
      (opened shard file : ShardState context).Consistent ∧ ∃ after chunks,
        shard.reserveForPayload batch.entries.length batch.requiredChunks =
          .ok (after, some chunks) := by
  obtain ⟨shard, hshard, hfresh⟩ := DiskCacheShard.recover_zero hcount
  refine ⟨shard, hshard, hfresh, opened_consistent hfresh.consistent fun page hpage => ?_, ?_⟩
  · rw [hfresh.dirty] at hpage
    exact absurd hpage (Finset.notMem_empty page)
  · rw [hone]
    exact hfresh.reserves hroom (List.length_pos_of_ne_nil batch.nonempty)

/-- The first write to a shard of a zeroed file. -/
theorem run_first_write (hcount : context.chunkCount ≤ 2 ^ 32) (hroom : 2 ≤ context.chunkCount)
    (file : BackingFile) (id request : Nat) (hone : batch.requiredChunks = 1) :
    ∃ shard next, DiskCacheShard.recoverShard context zeroReader = .ok shard ∧
      shard.Fresh context ∧
      run step (opened shard file) (payloadActions id request batch) = .ok next ∧
      (opened shard file).Wrote id batch next := by
  obtain ⟨shard, hshard, hfresh, hopened, after, chunks, hreserve⟩ :=
    first_reserve hcount hroom hone file
  obtain ⟨next, hrun, hwrote⟩ := run_payload_actions hopened hcount hone rfl rfl hreserve
  exact ⟨shard, next, hshard, hfresh, hrun, hwrote⟩

theorem large_chunk_of_zeros :
    smallEntryBytes ≤ payloadDiskBytes (List.replicate chunkBytes (0 : UInt8)).length := by
  rw [List.length_replicate]
  decide

/-- A write of one chunk of zeros. -/
def tinyBatch : PayloadBatch .tiny :=
  .large 3 (ShardContext.tiny_routes 3) (List.replicate chunkBytes 0) large_chunk_of_zeros

theorem tiny_batch_required_chunks : tinyBatch.requiredChunks = 1 := by
  show divCeil (List.replicate chunkBytes (0 : UInt8)).length chunkBytes = 1
  rw [List.length_replicate]
  decide

theorem tiny_batch_entry : ∃ entry ∈ tinyBatch.entries, entry.key = 3 :=
  ⟨_, List.mem_singleton_self _, rfl⟩

/-- The first call on the smallest shard gets its chunk. -/
theorem session_tiny_reserved :
    ∃ (state : ShardState .tiny) (chunks : ReservedChunks),
      session .tiny zeroReader ⟨fun _ => Page.zero, []⟩ [.call 0 tinyBatch, .reserve 0] =
      .ok state ∧
      state.calls.lookup 0 = some ⟨tinyBatch, .writing chunks 0 none⟩ := by
  obtain ⟨shard, hshard, -, -, after, chunks, hreserve⟩ :=
    first_reserve ShardContext.tiny_chunk_count
    ShardContext.tiny_room tiny_batch_required_chunks ⟨fun _ => Page.zero, []⟩
  let before : ShardState .tiny := opened shard ⟨fun _ => Page.zero, []⟩
  refine ⟨(before.advance after []).setPhase 0 ⟨tinyBatch, .reserving .full⟩
    (.writing chunks 0 none), chunks, ?_, Finmap.lookup_insert _⟩
  rw [session, recover_of_shard hshard, ok_bind, run_reserve rfl hreserve]

/-- The first write to the smallest shard, before and after its publication. -/
theorem session_tiny_write :
    ∃ (written state : ShardState .tiny) (chunks : ReservedChunks),
      session .tiny zeroReader ⟨fun _ => Page.zero, []⟩
        ([.call 0 tinyBatch, .reserve 0] ++ chunkActions 0 0) = .ok written ∧
      written.calls.lookup 0 = some ⟨tinyBatch, .publishing chunks⟩ ∧
      written.step (.publish 0) = .ok state ∧
      session .tiny zeroReader ⟨fun _ => Page.zero, []⟩ (payloadActions 0 0 tinyBatch) = .ok state ∧
      (state.shard.entryIndex.entriesByKey.lookup 3).isSome ∧ state.calls.lookup 1 = none := by
  obtain ⟨shard, hshard, hfresh, hopened, after, chunks, hreserve⟩ := first_reserve
    ShardContext.tiny_chunk_count ShardContext.tiny_room tiny_batch_required_chunks
    ⟨fun _ => Page.zero, []⟩
  obtain ⟨written, hrun, hcall, hslots, -, hindex, hothers⟩ :=
    run_until_publish hopened tiny_batch_required_chunks rfl rfl hreserve
  obtain ⟨state, hpublish, hwrote⟩ :=
    step_publish ((run_spec hopened _).of_ok hrun) ShardContext.tiny_chunk_count hcall hslots
  obtain ⟨entry, hentry, hkey⟩ := tiny_batch_entry
  obtain ⟨_, _, _, _, _, hplacement, -⟩ :=
    hwrote.indexed entry hentry (hindex ▸ hfresh.empty _)
  obtain ⟨found, hfound, -⟩ := DiskEntryIndex.lookup_of_placement? hplacement
  refine ⟨written, state, chunks, ?_, hcall, hpublish, ?_,
    Option.isSome_iff_exists.mpr ⟨found, hkey ▸ hfound⟩, ?_⟩
  · rw [session, recover_of_shard hshard, ok_bind, hrun]
  · rw [session, recover_of_shard hshard, ok_bind, payloadActions, run_append, hrun, ok_bind, run,
      hpublish]
    rfl
  · obtain ⟨count, hcalls⟩ := hwrote.call
    rw [hcalls, if_neg Nat.one_ne_zero, hothers 1 Nat.one_ne_zero]
    rfl

end ShardState

end Feuer.Storage
