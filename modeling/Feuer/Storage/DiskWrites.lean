import Feuer.Storage.Requests
import Feuer.Storage.SessionSteps

/-!
# Where the pages of a run go

As long as no call is dropped, every page that reaches the file goes to a chunk of the writer's own:
a payload page to a chunk that its call has reserved, and a page of a metadata round to the metadata
chunk it was encoded from.
-/

namespace Feuer.Storage

open Lib

variable {context : ShardContext}

/-! ## Metadata writes -/

/-- The write is for pages of one of the metadata chunks. -/
def MetadataChunks.Aimed (metadata : MetadataChunks) (write : MetadataWrite) : Prop :=
  ∃ chunk firstPage, metadata.chunks[write.chunkIndex]? = some chunk ∧
    write.request.firstPage =
      chunk.reservedChunk.chunkNumbers.start * pagesPerChunk + firstPage ∧
    firstPage + write.request.pages.length ≤ pagesPerChunk

namespace MetadataChunks

variable {metadata after : MetadataChunks} {write : MetadataWrite}

theorem Aimed.of_chunk (h : metadata.Aimed write)
    (hkept : ∀ (index : Nat) (chunk : MetadataChunk), metadata.chunks[index]? = some chunk →
      ∃ same, after.chunks[index]? = some same ∧ same.reservedChunk = chunk.reservedChunk) :
    after.Aimed write := by
  obtain ⟨chunk, firstPage, hchunk, hfirst, hfits⟩ := h
  obtain ⟨same, hsame, hreserved⟩ := hkept write.chunkIndex chunk hchunk
  exact ⟨same, firstPage, hsame, hreserved ▸ hfirst, hfits⟩

theorem Aimed.of_evolves (h : metadata.Aimed write) (hevolves : metadata.Evolves after) :
    after.Aimed write :=
  h.of_chunk fun index chunk hchunk => by
    obtain ⟨same, hsame, hreserved, -⟩ := hevolves.kept index chunk hchunk
    exact ⟨same, hsame, hreserved⟩

theorem Aimed.of_reflagged (h : metadata.Aimed write) (hsame : metadata.Reflagged after) :
    after.Aimed write :=
  h.of_chunk fun index chunk hchunk => by
    obtain ⟨same, hfound, hreserved, -⟩ := hsame.symm.chunk hchunk
    exact ⟨same, hfound, hreserved⟩

/-- The writes that a round starts with are aimed at their chunks. -/
theorem aimed_of_round {hash : List UInt8 → UInt64}
    (hdirty : ∀ page ∈ metadata.dirtyPages, metadata.HasPage page)
    (hwrite : write ∈ metadata.roundWrites hash) : metadata.Aimed write := by
  obtain ⟨page, hpage, hsome⟩ := mem_round_writes.mp hwrite
  obtain ⟨-, hbound⟩ := pages_to_write_has_page hdirty hpage
  obtain ⟨chunk, hchunk, hindex, ⟨-, -, hrequest⟩ | ⟨-, hrequest⟩⟩ := page_write_some hsome
  · refine ⟨chunk, 0, hindex ▸ hchunk, by rw [hrequest]; rfl, ?_⟩
    rw [hrequest]
    simp [MetadataChunk.encodePages, WriteRequest.new]
  · refine ⟨chunk, page.pageIndex, hindex ▸ hchunk, by rw [hrequest]; rfl, ?_⟩
    have hlength : (chunk.encodePages hash page.pageIndex 1).pages.length = 1 := by
      simp [MetadataChunk.encodePages, WriteRequest.new]
    rw [hrequest, hlength]
    exact hbound

/-- A page of an aimed write is a page of its chunk. -/
theorem Aimed.page (h : metadata.Aimed write) {position : Nat} {contents : Page}
    (hcontents : write.request.pages[position]? = some contents) :
    ∃ chunk, metadata.chunks[write.chunkIndex]? = some chunk ∧
      (write.request.firstPage + position) / pagesPerChunk =
        chunk.reservedChunk.chunkNumbers.start := by
  obtain ⟨chunk, firstPage, hchunk, hfirst, hfits⟩ := h
  have hposition := (List.getElem?_eq_some_iff.mp hcontents).1
  refine ⟨chunk, hchunk, ?_⟩
  rw [hfirst, Nat.add_assoc]
  exact ShardState.chunk_of_page _ (by omega)

end MetadataChunks

/-! ## Runs without dropped calls -/

/-- No call was dropped while its request was submitted: a call with a submitted request waits for
it. A dropped call keeps its request, so this speaks about all calls that were ever made. -/
def Undropped (calls : FiniteMap Nat (WriteCall context)) : Prop :=
  ∀ id call request, calls.lookup id = some call → call.phase.request? = some request →
    ∃ chunks written, call.phase = .writing chunks written (some request)

namespace ShardState

/-- What ties the writes in flight to their chunks. -/
structure Tracked (state : ShardState context) : Prop where
  served : Served state.calls state.requests
  undropped : Undropped state.calls
  aimed : ∀ writes, state.round = some writes →
    ∀ write ∈ writes, state.shard.metadataPages.Aimed write

variable {state next : ShardState context} {action : Action context}

theorem Tracked.opened (shard : DiskCacheShard) (file : BackingFile) :
    (opened shard file : ShardState context).Tracked where
  served := ⟨by simp [ShardState.opened], by simp [ShardState.opened], by simp [ShardState.opened],
    by simp [ShardState.opened]⟩
  undropped := by simp [Undropped, ShardState.opened]
  aimed writes hwrites := by cases hwrites

/-- What a step leaves undropped was not dropped before. -/
theorem Performs.undropped (hstep : state.Performs action next) (h : Undropped next.calls) :
    Undropped state.calls := by
  intro id call request hcall hrequest
  rcases hstep.call_cases hcall with ⟨-, phase, hmoves⟩ | ⟨-, hkept⟩
  · have hafter : next.calls.lookup id = some { call with phase } := by
      rw [hmoves.calls hcall, if_pos rfl]
    cases hmoves with
    | idle => exact h id _ request hafter hrequest
    | completed _ chunks written _ hphase | failed _ chunks written _ hphase
    | cancelled _ chunks written _ hphase =>
        rw [hphase] at hrequest ⊢
        exact ⟨chunks, written, congrArg _ hrequest⟩
    | dropped _ chunks result hphase =>
        -- The result keeps the request of a dropped call.
        rw [hphase] at hrequest
        cases result with
        | cancelled =>
            obtain ⟨_, _, hwriting⟩ := h id _ request hafter hrequest
            cases hwriting
        | published | failed => cases hrequest
    | reserved _ _ _ _ hphase | refused _ _ _ hphase | oversized _ _ _ hphase
    | evicted _ _ _ _ _ _ hphase | submitted _ _ _ _ hphase | published _ _ _ _ hphase
    | unpublished _ _ hphase =>
        rw [hphase] at hrequest
        cases hrequest
  · exact h id call request hkept hrequest

/-- In a run that drops no call while its request is submitted, no state had such a call. -/
theorem undropped_of_run {actions : List (Action context)}
    (hrun : run ShardState.step state actions = .ok next) (h : Undropped next.calls) :
    Undropped state.calls := by
  induction actions generalizing state with
  | nil =>
      cases hrun
      exact h
  | cons action rest ih =>
      obtain ⟨middle, hmiddle, hrest⟩ := bind_eq_ok.mp hrun
      exact (step_performs hmiddle).undropped (ih hrest)

/-- A property that the allowed steps keep holds in every state of a run of allowed actions that
drops no call while its request is submitted. -/
theorem run_undropped_invariant {Invariant : ShardState context → Prop}
    (Allowed : Action context → Prop)
    (hstep : ∀ (state : ShardState context) (action : Action context)
      (next : ShardState context), state.Consistent → next.Consistent → Invariant state →
        Allowed action → Undropped next.calls → state.Step action next → Invariant next)
    {actions : List (Action context)} (hstate : state.Consistent) (hinit : Invariant state)
    (hallowed : ∀ action ∈ actions, Allowed action)
    (hrun : run ShardState.step state actions = .ok next) (hkept : Undropped next.calls) :
    next.Consistent ∧ Invariant next := by
  induction actions generalizing state with
  | nil =>
      cases hrun
      exact ⟨hstate, hinit⟩
  | cons action rest ih =>
      obtain ⟨middle, hmiddle, hrest⟩ := bind_eq_ok.mp hrun
      obtain ⟨hconsistent, hdone⟩ := (step_spec hstate action).of_ok hmiddle
      have hundropped := undropped_of_run hrest hkept
      exact ih hconsistent (hstep state action middle hstate hconsistent hinit
        (hallowed action List.mem_cons_self) hundropped hdone)
        (fun other hother => hallowed other (List.mem_cons_of_mem _ hother)) hrest

/-- Every step keeps the writes of the round aimed at their chunks. -/
theorem Step.aimed (hstate : state.Consistent) (hstep : state.Step action next)
    (h : ∀ writes, state.round = some writes →
      ∀ write ∈ writes, state.shard.metadataPages.Aimed write)
    (writes : List MetadataWrite) (hwrites : next.round = some writes) (write : MetadataWrite)
    (hwrite : write ∈ writes) : next.shard.metadataPages.Aimed write := by
  cases hstep with
  | idle | called | submitted | persisted | completed | failed | cancelled | unpublished =>
      exact h writes hwrites write hwrite
  | changed _ shard hadvances => exact (h writes hwrites write hwrite).of_evolves hadvances.evolves
  | unreserved _ id call shard phase hcall hbefore hafter hadvances =>
      exact (h writes hwrites write hwrite).of_evolves hadvances.evolves
  | reserved id call budget shard chunks hcall hphase hadvances =>
      exact (h writes hwrites write hwrite).of_evolves hadvances.evolves
  | published id call chunks shard published hcall hphase hadvances =>
      exact (h writes hwrites write hwrite).of_evolves hadvances.evolves
  | dropped id call chunks result hcall hphase hadvances =>
      exact (h writes hwrites write hwrite).of_evolves hadvances.evolves
  | roundStarted hround =>
      dsimp only at hwrites
      split at hwrites
      next => cases hwrites
      next =>
        cases hwrites
        exact (MetadataChunks.aimed_of_round hstate.dirty hwrite).of_reflagged (.of_take _ _)
  | metadataPersisted position head rest contents hround =>
      cases hwrites
      rcases List.mem_cons.mp hwrite with rfl | hrest
      · exact h _ hround head List.mem_cons_self
      · exact h _ hround write (List.mem_cons_of_mem _ hrest)
  | metadataCompleted head rest hround =>
      dsimp only at hwrites
      split at hwrites
      next => cases hwrites
      next =>
        cases hwrites
        exact (h _ hround write (List.mem_cons_of_mem _ hwrite)).of_reflagged
          (.of_finish _ _ fun flag => flag && !head.fullChunk)
  | roundFailed => cases hwrites

/-- Every step keeps the writes in flight tied to their chunks. -/
theorem Tracked.step (h : state.Tracked) (hstate : state.Consistent)
    (hkept : Undropped next.calls) (hstep : state.Step action next) : next.Tracked where
  served := hstep.served h.served
  undropped := hkept
  aimed := hstep.aimed hstate h.aimed

/-- A request belongs to a call that waits for it. -/
theorem Tracked.writer (h : state.Tracked) {request : Nat} {found : WriteRequest}
    (hfound : state.requests.lookup request = some found) :
    ∃ id call chunks written, state.calls.lookup id = some call ∧
      call.phase = .writing chunks written (some request) := by
  obtain ⟨id, call, hcall, hrequest⟩ := h.served.owner request found hfound
  obtain ⟨chunks, written, hphase⟩ := h.undropped id call request hcall hrequest
  exact ⟨id, call, chunks, written, hcall, hphase⟩

end ShardState

end Feuer.Storage
