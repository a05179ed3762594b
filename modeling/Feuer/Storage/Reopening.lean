import Feuer.Storage.CleanReopen
import Feuer.Storage.UndisturbedWrite

/-!
# What the next process finds

A process may stop at any point: the next one recovers the beginning of the metadata chain, and only
entries that were published. A round of metadata writes that nothing disturbs leaves nothing to
write, and the next process then finds the entries, the slots, the chain and the reservations as
they were, with the published bytes on the file.
-/

namespace Feuer.Storage

open Lib

variable {context : ShardContext}

namespace ShardState

variable {state next : ShardState context}

/-! ## A round that nothing disturbs -/

/-- The writes of a round are persisted and succeed one after the other. -/
def writeActions (writes : List MetadataWrite) : List (Action context) :=
  writes.flatMap fun write =>
    (List.range write.request.pages.length).map .persistMetadata ++ [.completeMetadata]

/-- `write_dirty_metadata_pages`, when all its writes succeed and nothing happens in between. -/
def roundActions (state : ShardState context) : List (Action context) :=
  .startRound :: writeActions (state.shard.metadataPages.roundWrites context.hash)

/-- Every action is one of the round, and none fails it. -/
theorem of_round_of_round_actions {action : Action context} (h : action ∈ state.roundActions) :
    action.OfRound := by
  rcases List.mem_cons.mp h with rfl | hmem
  · rfl
  · obtain ⟨write, -, hwrite⟩ := List.mem_flatMap.mp hmem
    rcases List.mem_append.mp hwrite with hpersist | hcomplete
    · obtain ⟨position, -, rfl⟩ := List.mem_map.mp hpersist
      rfl
    · rw [List.mem_singleton.mp hcomplete]
      rfl

/-- Pages of the submitted write reach the file one after the other. -/
theorem run_persists {write : MetadataWrite} {rest : List MetadataWrite} (positions : List Nat)
    (hround : state.round = some (write :: rest))
    (hpages : ∀ position ∈ positions, position < write.request.pages.length) :
    ∃ final, run step state (positions.map .persistMetadata) = .ok final ∧
      final.shard = state.shard ∧ final.round = some ({ write with request :=
        { write.request with
          pending := write.request.pending \ positions.toFinset } } :: rest) := by
  induction positions generalizing state write with
  | nil => exact ⟨state, rfl, rfl, by simpa using hround⟩
  | cons position positions ih =>
      obtain ⟨next, hnext, hshard, hnextRound⟩ : ∃ next,
          state.step (.persistMetadata position) = .ok next ∧ next.shard = state.shard ∧
            next.round = some (write.persisted position :: rest) := by
        refine ⟨_, rfl, ?_⟩
        have hrequest := (write.request.persist_within (hpages position List.mem_cons_self)
          .metadata state.file).1
        unfold persistMetadataStep
        rw [hround]
        exact ⟨rfl, by rw [MetadataWrite.persisted, ← hrequest]⟩
      obtain ⟨final, hfinal, hsame, hleft⟩ := ih hnextRound fun other hother =>
        hpages other (List.mem_cons_of_mem _ hother)
      refine ⟨final, ?_, hsame.trans hshard, ?_⟩
      · rw [List.map_cons, run, hnext, ok_bind]
        exact hfinal
      · rw [hleft, List.toFinset_cons, Finset.sdiff_insert]
        simp only [MetadataWrite.persisted, Finset.erase_sdiff_comm]

/-- A write whose pages are all on the file succeeds. -/
theorem step_complete_metadata {write : MetadataWrite} {rest : List MetadataWrite}
    (hround : state.round = some (write :: rest)) (hdone : write.request.pending = ∅)
    (hindex : write.chunkIndex < state.shard.metadataPages.chunks.length) :
    ∃ next, state.step .completeMetadata = .ok next ∧
      next.round = (if rest = [] then none else some rest) ∧
      next.shard.metadataPages.dirtyPages = state.shard.metadataPages.dirtyPages ∧
      next.shard.entryIndex = state.shard.entryIndex ∧
      next.shard.chainNumbers = state.shard.chainNumbers := by
  refine ⟨{ state with
    shard := { state.shard with
      metadataPages := { state.shard.metadataPages with
        chunks := state.shard.metadataPages.chunks.modify write.chunkIndex fun chunk =>
          { chunk with needsFullWrite := chunk.needsFullWrite && !write.fullChunk } } }
    round := if rest = [] then none else some rest }, ?_, rfl, rfl, rfl, ?_⟩
  · show state.completeMetadataStep = _
    unfold completeMetadataStep
    rw [hround]
    dsimp only
    rw [if_pos hdone, MetadataChunks.finish_write_spec hindex]
    rfl
  · exact map_modify_of_eq _ _ _ _ fun _ => rfl

/-- The writes that are left succeed, and the round ends. -/
theorem run_writes (writes : List MetadataWrite)
    (hround : state.round = if writes = [] then none else some writes)
    (hunstarted : ∀ write ∈ writes,
      write.request.pending = Finset.range write.request.pages.length)
    (hbounds : ∀ write ∈ writes, write.chunkIndex < state.shard.chainNumbers.length) :
    ∃ final, run step state (writeActions writes) = .ok final ∧ final.round = none ∧
      final.shard.metadataPages.dirtyPages = state.shard.metadataPages.dirtyPages ∧
      final.shard.entryIndex = state.shard.entryIndex ∧
      final.shard.chainNumbers = state.shard.chainNumbers := by
  induction writes generalizing state with
  | nil => exact ⟨state, rfl, hround, rfl, rfl, rfl⟩
  | cons write rest ih =>
      rw [if_neg (List.cons_ne_nil _ _)] at hround
      obtain ⟨written, hwritten, hshard, hleft⟩ := run_persists
        (List.range write.request.pages.length) hround fun _ => List.mem_range.mp
      have hdone :
          write.request.pending \ (List.range write.request.pages.length).toFinset = ∅ := by
        rw [hunstarted write List.mem_cons_self, List.toFinset_range, Finset.sdiff_self]
      have hindex : write.chunkIndex < written.shard.metadataPages.chunks.length := by
        have hbound := hbounds write List.mem_cons_self
        rw [DiskCacheShard.chainNumbers, List.length_map] at hbound
        rw [hshard]
        exact hbound
      obtain ⟨completed, hcompleted, hnext, hdirty, hentries, hchain⟩ :=
        step_complete_metadata hleft hdone hindex
      obtain ⟨final, hfinal, hended, hdirty', hentries', hchain'⟩ := ih hnext
        (fun other hother => hunstarted other (List.mem_cons_of_mem _ hother))
        fun other hother => by
          rw [hchain, hshard]
          exact hbounds other (List.mem_cons_of_mem _ hother)
      refine ⟨final, ?_, hended, ?_, ?_, ?_⟩
      · show run step state ((_ ++ [_]) ++ writeActions rest) = _
        rw [run_append, run_append, hwritten, ok_bind, run, hcompleted, ok_bind]
        exact hfinal
      · rw [hdirty', hdirty, hshard]
      · rw [hentries', hentries, hshard]
      · rw [hchain', hchain, hshard]

/-- After an undisturbed round nothing is left to write. -/
theorem run_round_actions (h : state.Consistent) (hround : state.round = none) :
    Outcome (Panic.Unindexable context.chunkCount) (fun final => final.Clean ∧
      final.shard.entryIndex = state.shard.entryIndex ∧
      final.shard.chainNumbers = state.shard.chainNumbers) (run step state state.roundActions) := by
  have hlength := h.shard.length_le
  rw [roundActions, run]
  have hstart : Outcome (Panic.Unindexable context.chunkCount) (fun started =>
      started.round = (if state.shard.metadataPages.roundWrites context.hash = [] then none
        else some (state.shard.metadataPages.roundWrites context.hash)) ∧
      started.shard = { state.shard with
        metadataPages := { state.shard.metadataPages with dirtyPages := ∅ } })
      (state.step .startRound) := by
    show Outcome _ _ state.startRoundStep
    unfold startRoundStep
    rw [hround]
    refine ((MetadataChunks.take_dirty_pages_spec h.dirty).weaken fun _ => ?_).bind ?_
    · exact fun hwide => ⟨hwide.1, hwide.2.trans_le hlength⟩
    · rintro taken rfl
      exact ⟨rfl, rfl⟩
  refine hstart.bind fun started hstarted => ?_
  obtain ⟨hstartedRound, hshard⟩ := hstarted
  obtain ⟨final, hfinal, hended, hdirty, hentries, hchain⟩ :=
    run_writes _ hstartedRound (fun write hwrite => MetadataChunks.unstarted_of_round_write hwrite)
      fun write hwrite => by
        obtain ⟨chunk, _, hchunk, -⟩ := MetadataChunks.aimed_of_round h.dirty hwrite
        rw [hshard, DiskCacheShard.chainNumbers, List.length_map]
        exact (List.getElem?_eq_some_iff.mp hchunk).1
  rw [hfinal]
  refine ⟨⟨?_, hended⟩, ?_, ?_⟩
  · rw [hdirty, hshard]
  · rw [hentries, hshard]
  · rw [hchain, hshard]
    rfl

/-- An undisturbed round moves no call and publishes nothing. -/
theorem run_round_actions_kept (hrun : run step state state.roundActions = .ok next) :
    next.calls = state.calls ∧ publicationsOf next.file.log = publicationsOf state.file.log := by
  refine run_invariant (fun later : ShardState context => later.calls = state.calls ∧
    publicationsOf later.file.log = publicationsOf state.file.log)
    (fun action => action.OfRound) (fun later action after hlater hround hstep => ?_)
    ⟨rfl, rfl⟩ (fun _ => of_round_of_round_actions) hrun
  obtain ⟨hcalls, hlog⟩ := (step_performs hstep).of_round hround
  exact ⟨hcalls.trans hlater.1, hlog.trans hlater.2⟩

theorem fail_metadata_notMem_round_actions : .failMetadata ∉ state.roundActions :=
  fun hmem => Bool.false_ne_true (of_round_of_round_actions hmem)

/-! ## A process that writes an entry -/

/-- The first process of a zeroed file writes an entry and has no round in progress. -/
theorem life_tiny_write :
    ∃ state : ShardState .tiny,
      (opened (DiskCacheShard.new .tiny) ⟨fun _ => Page.zero, []⟩).life
        (payloadActions 0 0 tinyBatch) = .ok state ∧
      state.Consistent ∧ state.round = none ∧ Undropped state.calls ∧
      (state.shard.entryIndex.placement? 3).isSome := by
  obtain ⟨shard, state, hshard, hfresh, hrun, hwrote⟩ :=
    run_first_write ShardContext.tiny_chunk_count
    ShardContext.tiny_room ⟨fun _ => Page.zero, []⟩ 0 0 tiny_batch_required_chunks
  obtain ⟨written, hwritten, hkey⟩ := tiny_batch_entry
  obtain ⟨_, _, _, _, _, hplacement, -⟩ := hwrote.indexed written hwritten (hfresh.empty _)
  refine ⟨state, ?_, hwrote.consistent, hwrote.round, fun id call request hcall hrequest => ?_,
    Option.isSome_iff_exists.mpr ⟨_, hkey ▸ hplacement⟩⟩
  · -- The file is read as zeros.
    have hreopen : (opened (DiskCacheShard.new .tiny) ⟨fun _ => Page.zero, []⟩).reopen =
        .ok (opened shard ⟨fun _ => Page.zero, []⟩) := recover_of_shard hshard
    rw [life, hreopen, ok_bind, hrun]
  · -- The only call has returned.
    obtain ⟨count, hcalls⟩ := hwrote.call
    rw [hcalls] at hcall
    split at hcall
    next =>
      cases hcall
      cases hrequest
    next => cases hcall

/-- It writes its metadata and closes. -/
theorem life_tiny_closed :
    ∃ actions, ∃ final : ShardState .tiny, .failMetadata ∉ actions ∧
      (opened (DiskCacheShard.new .tiny) ⟨fun _ => Page.zero, []⟩).life actions = .ok final ∧
      Undropped final.calls ∧ final.Clean ∧ (final.shard.entryIndex.placement? 3).isSome := by
  obtain ⟨state, hlife, hconsistent, hround, hkept, hentry⟩ := life_tiny_write
  obtain ⟨final, hfinal, hclean, hentries, -⟩ :=
    ShardContext.exists_ok ShardContext.tiny_chunk_count (run_round_actions hconsistent hround)
  refine ⟨payloadActions 0 0 tinyBatch ++ state.roundActions, final, ?_, ?_, ?_, hclean, ?_⟩
  · rw [List.mem_append, not_or]
    exact ⟨by simp [payloadActions, chunkActions], fail_metadata_notMem_round_actions⟩
  · obtain ⟨reopened, hreopen, hrun⟩ := bind_eq_ok.mp hlife
    rw [life, hreopen, ok_bind, run_append, hrun, ok_bind]
    exact hfinal
  · exact (run_round_actions_kept hfinal).1 ▸ hkept
  · exact hentries ▸ hentry

/-! ## What survives -/

/-- Processes that open a file one after the other and stop at any point, with any failures of their
writes. No process drops a call while its request is submitted. The next process recovers the
beginning of the chain that the last one had, and only entries that were published. -/
theorem reopen_after_stops (context : ShardContext) (file : BackingFile)
    (hzero : (file.disk.chunk context.chunks.start).IsZero) (lives : List (List (Action context)))
    (hkept : ∀ before state, before <+: lives → history context file before = .ok state →
      Undropped state.calls) :
    Outcome (Panic.Unindexable context.chunkCount) (fun state =>
      Outcome (Panic.Unindexable context.chunkCount) (fun next =>
        next.shard.chainNumbers <+: state.shard.chainNumbers ∧
        ∀ key record location, next.shard.entryIndex.placement? key = some (record, location) →
          record.key = key ∧ ∃ payload,
            .published context.payloadVersion context.capacity record payload ∈ state.file.log ∧
            payload.length = record.payloadLen ∧ record.payloadChecksum = context.hash payload)
        state.reopen)
      (history context file lives) := by
  have hhistory : Outcome (Panic.Unindexable context.chunkCount)
      (fun state => state.Reopenable ∧ history context file lives = .ok state)
      (history context file lives) := by
    refine @run_outcome_done _ _ _ _ (fun before state => state.Reopenable ∧
      history context file before = .ok state) _ [] lives _
      (fun before actions after state hlives hstate => ?_) ⟨reopenable_zero hzero, rfl⟩
    refine (hstate.1.life actions).eq_ok.mono fun next hnext => ?_
    have hhistory : history context file (before ++ [actions]) = .ok next := by
      rw [history, run_append, ← history, hstate.2, ok_bind, run, hnext.2]
      rfl
    exact ⟨hnext.1 (hkept _ next ⟨after, by rw [List.append_assoc]; exact hlives.symm⟩ hhistory),
      hhistory⟩
  refine hhistory.mono fun state hstate => hstate.1.reopen.mono fun next hnext => ?_
  obtain ⟨hreopened, hfile, hchain⟩ := hnext
  refine ⟨hchain, fun key record location hentry => ⟨DiskEntryIndex.key_of_placement? hentry, ?_⟩⟩
  have hslot := (hreopened.consistent.shard.agreed.slot key record location hentry).1
  rw [← hfile]
  exact (hreopened.onFile.recorded location record hslot).published

/-- A process that wrote an entry, and stopped. -/
theorem reopen_after_stops_written :
    ∃ actions, ∃ state : ShardState .tiny,
      history .tiny ⟨fun _ => Page.zero, []⟩ [actions] = .ok state ∧
      (state.shard.entryIndex.placement? 3).isSome ∧
      ∃ next, state.reopen = .ok next ∧
        (next.shard.entryIndex.placement? 3).isSome ∧
        next.shard.chainNumbers <+: state.shard.chainNumbers ∧
        ∀ key record location, next.shard.entryIndex.placement? key = some (record, location) →
          record.key = key ∧ ∃ payload,
            .published ShardContext.tiny.payloadVersion ShardContext.tiny.capacity record payload ∈
              state.file.log ∧
            payload.length = record.payloadLen ∧
            record.payloadChecksum = ShardContext.tiny.hash payload := by
  obtain ⟨actions, final, hrounds, hlife, hkept, hclean, hentry⟩ := life_tiny_closed
  have hhistory : history .tiny ⟨fun _ => Page.zero, []⟩ [actions] = .ok final := by
    rw [history, run, hlife]
    rfl
  have hreopened := reopen_after_stops .tiny ⟨fun _ => Page.zero, []⟩ (fun _ _ => rfl) [actions] ?_
  · rw [hhistory] at hreopened
    have hrestored := (ClosedCleanly.closed .created actions hrounds hlife hkept hclean).restorable
      (fun _ _ => rfl)
    obtain ⟨next, hnext, hrestores⟩ := ShardContext.exists_ok ShardContext.tiny_chunk_count
      (hrestored.1.restores hrestored.2)
    obtain ⟨hchain, hentries⟩ := (hreopened.of_ok rfl).of_ok hnext
    exact ⟨actions, final, hhistory, hentry, next, hnext, hrestores.entries 3 ▸ hentry, hchain,
      hentries⟩
  · -- Before the process there was no call.
    intro before state hprefix hstate
    rcases List.prefix_cons_iff.mp hprefix with rfl | ⟨rest, rfl, hrest⟩
    · cases hstate
      exact (Tracked.opened _ _).undropped
    · rw [List.prefix_nil.mp hrest, hhistory] at hstate
      cases hstate
      exact hkept

/-- Reopening is the identity after any number of processes that closed cleanly: each next one
recovers the entries, the slots, the chain and its links, and the payload reservations. -/
theorem reopen_restores {file : BackingFile}
    (hzero : (file.disk.chunk context.chunks.start).IsZero)
    (h : ClosedCleanly context file state) :
    Outcome (Panic.Unindexable context.chunkCount) (Restores state) state.reopen := by
  obtain ⟨hrestorable, hclean⟩ := h.restorable hzero
  exact hrestorable.restores hclean

/-- A process that wrote an entry, ran a round and closed. -/
theorem reopen_restores_written :
    ∃ state : ShardState .tiny,
      ClosedCleanly .tiny ⟨fun _ => Page.zero, []⟩ state ∧
      (state.shard.entryIndex.placement? 3).isSome ∧
      Outcome (Panic.Unindexable ShardContext.tiny.chunkCount) (Restores state) state.reopen := by
  obtain ⟨actions, final, hrounds, hlife, hkept, hclean, hentry⟩ := life_tiny_closed
  have hclosed := ClosedCleanly.closed .created actions hrounds hlife hkept hclean
  exact ⟨final, hclosed, hentry, reopen_restores (fun _ _ => rfl) hclosed⟩

/-- What was published for a key has a newest publication. -/
theorem newest_publication_of_recorded {log : List Event} {record : EntryMetadata}
    (h : Recorded context log record) :
    ∃ found payload, newestPublication record.key log = some (found, payload) := by
  obtain ⟨payload, hpublished, -⟩ := h.published
  have hmem : (record, payload) ∈ publicationsOf log :=
    List.mem_filterMap.mpr ⟨_, hpublished, rfl⟩
  obtain ⟨⟨found, bytes⟩, hfound⟩ := Option.isSome_iff_exists.mp (newest_publication_isSome hmem)
  exact ⟨found, bytes, hfound⟩

/-- An undisturbed round leaves nothing to write and makes the entries of a process survive it: the
next process indexes each of them, and the file holds the bytes that were last published for its
key. The file was always closed cleanly, and the process itself has failed no metadata round and has
dropped no call while its request was submitted. -/
theorem round_survives {file : BackingFile}
    (hzero : (file.disk.chunk context.chunks.start).IsZero) {closed : ShardState context}
    (h : ClosedCleanly context file closed) {actions : List (Action context)}
    (hrounds : .failMetadata ∉ actions) (hlife : closed.life actions = .ok state)
    (hkept : Undropped state.calls) (hround : state.round = none) :
    Outcome (Panic.Unindexable context.chunkCount) (fun final => final.Clean ∧
      Outcome (Panic.Unindexable context.chunkCount) (fun next =>
        ∀ key, next.shard.entryIndex.placement? key = state.shard.entryIndex.placement? key ∧
          ∀ record location, state.shard.entryIndex.placement? key = some (record, location) →
            ∃ payload, newestPublication key state.file.log = some (record, payload) ∧
              Disk.bytes next.file.disk record.payloadAddress record.payloadLen = payload)
        final.reopen)
      (run step state state.roundActions) := by
  obtain ⟨hrestorable, hclean⟩ := h.restorable hzero
  have hstate := hrestorable.life hclean hrounds hlife hkept
  refine (run_round_actions hstate.consistent hround).eq_ok.mono fun final hfinal => ?_
  obtain ⟨⟨hfinalClean, hentries, -⟩, hrun⟩ := hfinal
  obtain ⟨hcalls, hlog⟩ := run_round_actions_kept hrun
  have hwritten := hstate.run fail_metadata_notMem_round_actions hrun (hcalls ▸ hkept)
  refine ⟨hfinalClean, (hwritten.restores hfinalClean).mono fun next hnext key => ⟨?_, ?_⟩⟩
  · rw [hnext.entries, hentries]
  · intro record location hentry
    have hslot := (hstate.consistent.shard.agreed.slot key record location hentry).1
    obtain ⟨found, payload, hnewest⟩ :=
      newest_publication_of_recorded (hstate.onFile.recorded location record hslot)
    rw [DiskEntryIndex.key_of_placement? hentry] at hnewest
    obtain rfl := (hstate.entries.newest key record location found payload hentry hnewest).1
    have hlater : newestPublication key final.file.log = some (found, payload) := by
      rw [newestPublication, hlog]
      exact hnewest
    rw [← hentries] at hentry
    refine ⟨payload, hnewest, ?_⟩
    rw [hnext.file]
    exact (hwritten.entries.newest key found location found payload hentry hlater).2.1

/-- The first process writes an entry, and a round makes it survive. -/
theorem round_survives_written :
    ∃ state : ShardState .tiny,
      (opened (DiskCacheShard.new .tiny) ⟨fun _ => Page.zero, []⟩).life
        (payloadActions 0 0 tinyBatch) = .ok state ∧
      (state.shard.entryIndex.placement? 3).isSome ∧
      Outcome (Panic.Unindexable ShardContext.tiny.chunkCount) (fun final => final.Clean ∧
        Outcome (Panic.Unindexable ShardContext.tiny.chunkCount) (fun next =>
          ∀ key, next.shard.entryIndex.placement? key = state.shard.entryIndex.placement? key ∧
            ∀ record location, state.shard.entryIndex.placement? key = some (record, location) →
              ∃ payload, newestPublication key state.file.log = some (record, payload) ∧
                Disk.bytes next.file.disk record.payloadAddress record.payloadLen = payload)
          final.reopen)
        (run step state state.roundActions) := by
  obtain ⟨state, hlife, -, hround, hkept, hentry⟩ := life_tiny_write
  exact ⟨state, hlife, hentry, round_survives (fun _ _ => rfl) .created
    (by simp [payloadActions, chunkActions]) hlife hkept hround⟩

end ShardState

end Feuer.Storage
