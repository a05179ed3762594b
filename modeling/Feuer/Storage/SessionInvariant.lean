import Feuer.Storage.Session
import Feuer.Storage.MetadataRoundLemmas

/-!
# The invariant of concurrent runs

Every chunk of a shard has exactly one owner in every state of every run: a free run, a payload
reservation, a metadata chunk, or a call that holds it for a payload it is writing. The index, the
slots, the eviction candidates and the links agree throughout. One step keeps the invariant, so
every run does, and the only panic that a run can reach is the conversion of a chain position that
no longer fits in 32 bits.
-/

namespace Feuer.Storage

open Lib

variable {context : ShardContext}

/-- A call's reservation has the length that its payload requires, and the chunk that it writes
next is inside it. -/
structure WriteCall.Valid (call : WriteCall context) : Prop where
  length : ∀ chunks, call.phase.chunks? = some chunks →
    chunks.chunkNumbers.stop = chunks.chunkNumbers.start + call.batch.requiredChunks
  written : ∀ chunks written request, call.phase = .writing chunks written request →
    written < call.batch.requiredChunks

theorem WriteCall.Valid.chunks_lt {call : WriteCall context} (h : call.Valid)
    {chunks : ReservedChunks} (hchunks : call.phase.chunks? = some chunks) :
    chunks.chunkNumbers.start < chunks.chunkNumbers.stop := by
  have hlength := h.length chunks hchunks
  have hpos := call.batch.required_chunks_pos
  omega

/-- The entries of a call fit into its reservation. -/
theorem WriteCall.Valid.placed {call : WriteCall context} (h : call.Valid)
    {chunks : ReservedChunks} (hchunks : call.phase.chunks? = some chunks) {entry : WriteEntry}
    (hentry : entry ∈ call.batch.entries) : DiskCacheShard.Placed context chunks entry where
  routed := call.batch.routed entry hentry
  offset_lt := call.batch.offset_lt entry hentry
  fits := by
    have hfits := call.batch.storage_le hentry
    simp only [EntryMetadata.storage, WriteEntry.record, ReservedChunks.diskByteRange,
      h.length chunks hchunks, Nat.add_mul]
    omega

namespace ShardState

variable {state : ShardState context} {id : Nat} {call : WriteCall context}

/-- How many calls hold a reservation of the chunk. -/
def inFlight (state : ShardState context) (chunk : Nat) : Nat :=
  FiniteMap.tally (fun _ call => call.owned chunk) state.calls

/-- How many calls other than one hold a reservation of the chunk. -/
def inFlightBeside (state : ShardState context) (id chunk : Nat) : Nat :=
  FiniteMap.tally (fun _ call => call.owned chunk) (state.calls.erase id)

theorem in_flight_eq (hcall : state.calls.lookup id = some call) (chunk : Nat) :
    state.inFlight chunk = state.inFlightBeside id chunk + call.owned chunk := by
  rw [inFlight, FiniteMap.tally_erase _ hcall, Nat.add_comm]
  rfl

theorem in_flight_insert (calls : FiniteMap Nat (WriteCall context)) (id : Nat)
    (call : WriteCall context) (chunk : Nat) :
    FiniteMap.tally (fun _ call => call.owned chunk) (calls.insert id call) =
      FiniteMap.tally (fun _ call => call.owned chunk) (calls.erase id) + call.owned chunk := by
  rw [← FiniteMap.insert_erase, FiniteMap.tally_insert_new, Nat.add_comm]
  rw [FiniteMap.lookup_erase_eq, if_pos rfl]

/-- The state of a shard is consistent with what runs on it. -/
structure Consistent (state : ShardState context) : Prop where
  shard : state.shard.Consistent context DiskCacheShard.noPending state.inFlight
  calls : ∀ id call, state.calls.lookup id = some call → call.Valid
  dirty : ∀ page ∈ state.shard.metadataPages.dirtyPages, state.shard.metadataPages.HasPage page
  round : ∀ writes, state.round = some writes →
    ∀ write ∈ writes, write.chunkIndex < state.shard.metadataPages.chunks.length

/-- A change of the shard that leaves the round alone keeps its pages in bounds. -/
theorem Consistent.of_advance (h : state.Consistent) {next : ShardState context}
    {published : List EntryMetadata} (hadvances : state.shard.Advances published next.shard)
    (hround : next.round = state.round)
    (hshard : next.shard.Consistent context DiskCacheShard.noPending next.inFlight)
    (hcalls : ∀ id call, next.calls.lookup id = some call → call.Valid) : next.Consistent where
  shard := hshard
  calls := hcalls
  dirty page hpage := by
    have hlength := hadvances.evolves.length_le
    rcases hadvances.evolves.marked page hpage with hold | hbounds
    · exact ⟨(h.dirty page hold).1.trans_le hlength, (h.dirty page hold).2⟩
    · exact hbounds
  round writes hwrites write hwrite :=
    (h.round writes (hround ▸ hwrites) write hwrite).trans_le hadvances.evolves.length_le

/-- The calls after one of them has moved on. -/
theorem Consistent.calls_insert (h : state.Consistent) {moved : WriteCall context}
    (hmoved : moved.Valid) (other : Nat) (found : WriteCall context)
    (hfound : (state.calls.insert id moved).lookup other = some found) : found.Valid := by
  rw [FiniteMap.lookup_insert_eq] at hfound
  split at hfound
  next =>
    cases hfound
    exact hmoved
  next => exact h.calls other found hfound

/-- A call that moves on with the same reservation. -/
theorem Consistent.of_same_chunks (h : state.Consistent)
    (hcall : state.calls.lookup id = some call) {phase : WritePhase}
    (hchunks : phase.chunks? = call.phase.chunks?)
    (hwritten : ∀ chunks written request, phase = .writing chunks written request →
      written < call.batch.requiredChunks)
    (requests : FiniteMap Nat WriteRequest) :
    ({ state with requests }.setPhase id call phase).Consistent := by
  have hvalid : WriteCall.Valid ⟨call.batch, phase⟩ :=
    ⟨fun chunks hphase => (h.calls id call hcall).length chunks (hchunks ▸ hphase), hwritten⟩
  have hflight : ({ state with requests }.setPhase id call phase).inFlight = state.inFlight := by
    funext chunk
    rw [in_flight_eq hcall]
    refine (in_flight_insert state.calls id ⟨call.batch, phase⟩ chunk).trans ?_
    simp only [WriteCall.owned, hchunks]
    rfl
  refine h.of_advance (.refl _) rfl ?_ (h.calls_insert hvalid)
  rw [hflight]
  exact h.shard

/-! ## What a step does -/

/-- What a step of a consistent state does. Every constructor but `idle` is one outcome of one
kind of action. -/
inductive Step (state : ShardState context) : Action context → ShardState context → Prop where
  | idle (action : Action context) : Step state action state
  | called (id : Nat) (batch : PayloadBatch context) (hnew : state.calls.lookup id = none) :
      Step state (.call id batch)
        { state with calls := state.calls.insert id ⟨batch, .reserving .full⟩ }
  /-- An entry is removed or read, or the metadata chain grows. -/
  | changed (action : Action context) (shard : DiskCacheShard)
      (hadvances : state.shard.Advances [] shard) : Step state action (state.advance shard [])
  /-- A call without a reservation samples, evicts, or gives up. -/
  | unreserved (action : Action context) (id : Nat) (call : WriteCall context)
      (shard : DiskCacheShard) (phase : WritePhase) (hcall : state.calls.lookup id = some call)
      (hbefore : call.phase.chunks? = none ∧ call.phase.request? = none)
      (hafter : phase.chunks? = none ∧ phase.request? = none)
      (hadvances : state.shard.Advances [] shard) :
      Step state action ((state.advance shard []).setPhase id call phase)
  | reserved (id : Nat) (call : WriteCall context) (budget : EvictionBudget)
      (shard : DiskCacheShard) (chunks : ReservedChunks)
      (hcall : state.calls.lookup id = some call) (hphase : call.phase = .reserving budget)
      (hadvances : state.shard.Advances [] shard)
      (hindex : shard.entryIndex = state.shard.entryIndex) (hfresh : chunks.recovered = false) :
      Step state (.reserve id) ((state.advance shard []).setPhase id call (.writing chunks 0 none))
  | submitted (id : Nat) (call : WriteCall context) (chunks : ReservedChunks)
      (written request : Nat) (hcall : state.calls.lookup id = some call)
      (hphase : call.phase = .writing chunks written none)
      (hnew : state.requests.lookup request = none) :
      Step state (.submit id request) (state.submitStep id call chunks written request)
  | persisted (request position : Nat) (found : WriteRequest) (contents : Page)
      (hfound : state.requests.lookup request = some found)
      (hcontents : found.pages[position]? = some contents) (hpending : position ∈ found.pending) :
      Step state (.persist request position)
        { state with
          requests := state.requests.insert request
            { found with pending := found.pending.erase position }
          file := state.file.write (found.firstPage + position) contents .payload }
  | completed (id : Nat) (call : WriteCall context) (chunks : ReservedChunks)
      (written request : Nat) (found : WriteRequest) (hcall : state.calls.lookup id = some call)
      (hphase : call.phase = .writing chunks written (some request))
      (hfound : state.requests.lookup request = some found) (hdone : found.pending = ∅) :
      Step state (.complete id) (state.completeStep id call chunks written request)
  | failed (id : Nat) (call : WriteCall context) (chunks : ReservedChunks) (written : Nat)
      (request : Option Nat) (hcall : state.calls.lookup id = some call)
      (hphase : call.phase = .writing chunks written request) :
      Step state (.fail id) ({ state with
        requests := request.elim state.requests fun found => state.requests.erase found }.setPhase
          id call (.dropping chunks .failed))
  | cancelled (id : Nat) (call : WriteCall context) (chunks : ReservedChunks) (written : Nat)
      (request : Option Nat) (hcall : state.calls.lookup id = some call)
      (hphase : call.phase = .writing chunks written request) :
      Step state (.cancel id) (state.setPhase id call (.dropping chunks (.cancelled request)))
  | published (id : Nat) (call : WriteCall context) (chunks : ReservedChunks)
      (shard : DiskCacheShard) (published : List EntryMetadata)
      (hcall : state.calls.lookup id = some call) (hphase : call.phase = .publishing chunks)
      (hadvances : state.shard.Advances published shard)
      (hrecords : ∀ record ∈ published, record ∈
        call.batch.entries.map fun entry => entry.record chunks.diskByteRange.start)
      (hindexed : ∀ record ∈ published, ∃ location,
        shard.entryIndex.placement? record.key = some (record, location))
      (hkept : ∀ key found, state.shard.entryIndex.placement? key = some found →
        shard.entryIndex.placement? key = some found)
      (hreserved : published ≠ [] →
        shard.allocator.reservation? chunks.chunkNumbers.start = some chunks) :
      Step state (.publish id)
        ((state.advance shard (publication context call.batch chunks published)).setPhase id call
          (.finished (.published published.length)))
  /-- Without metadata space for all entries nothing is published. -/
  | unpublished (id : Nat) (call : WriteCall context) (chunks : ReservedChunks)
      (hcall : state.calls.lookup id = some call) (hphase : call.phase = .publishing chunks) :
      Step state (.publish id) (state.setPhase id call (.dropping chunks (.published 0)))
  | dropped (id : Nat) (call : WriteCall context) (chunks : ReservedChunks) (result : WriteResult)
      (hcall : state.calls.lookup id = some call) (hphase : call.phase = .dropping chunks result)
      (hadvances : state.shard.Advances []
        { state.shard with allocator := state.shard.allocator.drop chunks }) :
      Step state (.drop id) ((state.advance
        { state.shard with allocator := state.shard.allocator.drop chunks } []).setPhase id call
          (.finished result))
  | roundStarted (hround : state.round = none) :
      Step state .startRound
        { state with
          shard := { state.shard with
            metadataPages := { state.shard.metadataPages with dirtyPages := ∅ } }
          round := if state.shard.metadataPages.roundWrites context.hash = [] then none
            else some (state.shard.metadataPages.roundWrites context.hash) }
  | metadataPersisted (position : Nat) (write : MetadataWrite) (rest : List MetadataWrite)
      (contents : Page) (hround : state.round = some (write :: rest))
      (hcontents : write.request.pages[position]? = some contents)
      (hpending : position ∈ write.request.pending) :
      Step state (.persistMetadata position)
        { state with
          round := some ({ write with request :=
            { write.request with pending := write.request.pending.erase position } } :: rest)
          file := state.file.write (write.request.firstPage + position) contents .metadata }
  | metadataCompleted (write : MetadataWrite) (rest : List MetadataWrite)
      (hround : state.round = some (write :: rest)) (hdone : write.request.pending = ∅) :
      Step state .completeMetadata
        { state with
          shard := { state.shard with
            metadataPages := { state.shard.metadataPages with
              chunks := state.shard.metadataPages.chunks.modify write.chunkIndex fun chunk =>
                { chunk with needsFullWrite := chunk.needsFullWrite && !write.fullChunk } } }
          round := if rest = [] then none else some rest }
  | roundFailed : Step state .failMetadata { state with round := none }

/-- A step that succeeds, or one that panics because the chain is too long. -/
def StepOutcome (state : ShardState context) (action : Action context)
    (result : Except Panic (ShardState context)) : Prop :=
  Outcome (Panic.Unindexable context.chunkCount)
    (fun next => next.Consistent ∧ state.Step action next) result

/-! ## The steps of a call -/

/-- The steps of a call that change the shard leave a consistent state. -/
theorem Consistent.of_phase (h : state.Consistent) {shard : DiskCacheShard}
    {published : List EntryMetadata} {events : List Event} {phase : WritePhase}
    (hadvances : state.shard.Advances published shard)
    (hvalid : WriteCall.Valid ⟨call.batch, phase⟩)
    (hshard : shard.Consistent context DiskCacheShard.noPending
      (fun chunk => state.inFlightBeside id chunk + WriteCall.owned ⟨call.batch, phase⟩ chunk)) :
    ((state.advance shard events).setPhase id call phase).Consistent := by
  refine h.of_advance hadvances rfl ?_ (h.calls_insert hvalid)
  have hflight : ((state.advance shard events).setPhase id call phase).inFlight =
      fun chunk => state.inFlightBeside id chunk + WriteCall.owned ⟨call.batch, phase⟩ chunk :=
    funext fun chunk => in_flight_insert state.calls id ⟨call.batch, phase⟩ chunk
  rw [hflight]
  exact hshard

/-- The shard accounts for a call and for the calls beside it. -/
theorem Consistent.shard_beside (h : state.Consistent) (hcall : state.calls.lookup id = some call) :
    state.shard.Consistent context DiskCacheShard.noPending
      (fun chunk => state.inFlightBeside id chunk + call.owned chunk) := by
  rw [← funext (in_flight_eq hcall)]
  exact h.shard

theorem valid_of_no_chunks {call : WriteCall context} (hchunks : call.phase.chunks? = none) :
    call.Valid where
  length chunks hsome := by
    rw [hchunks] at hsome
    cases hsome
  written chunks written request hphase := by
    rw [hphase] at hchunks
    cases hchunks

/-- A call without a reservation moves on without one. -/
theorem Consistent.of_unreserved (h : state.Consistent) {shard : DiskCacheShard}
    {phase : WritePhase} (hadvances : state.shard.Advances [] shard)
    (hshard : shard.Consistent context DiskCacheShard.noPending (state.inFlightBeside id))
    (hphase : phase.chunks? = none) :
    ((state.advance shard []).setPhase id call phase).Consistent := by
  refine h.of_phase hadvances (valid_of_no_chunks hphase) ?_
  simpa only [WriteCall.owned, hphase, Nat.add_zero] using hshard

/-- A call reserves its chunks, or goes on without. -/
theorem reserve_step_spec (h : state.Consistent) (hcall : state.calls.lookup id = some call)
    {budget : EvictionBudget} (hphase : call.phase = .reserving budget) :
    state.StepOutcome (.reserve id) (state.reserveStep id call budget) := by
  have hbefore : call.phase.chunks? = none ∧ call.phase.request? = none := by
    rw [hphase]
    exact ⟨rfl, rfl⟩
  have hbeside := h.shard_beside hcall
  simp only [WriteCall.owned, hbefore.1, Nat.add_zero] at hbeside
  refine (DiskCacheShard.reserve_for_payload_spec hbeside
    (List.length_pos_of_ne_nil call.batch.nonempty) call.batch.requiredChunks).bind ?_
  rintro ⟨shard, reserved⟩ ⟨hadvances, hindex, hnone, hsome⟩
  cases reserved with
  | none =>
      have hafter : ∀ required : Nat,
          (if shard.payloadChunkCapacity < required then WritePhase.finished (.published 0)
            else .evicting budget).chunks? = none ∧
          (if shard.payloadChunkCapacity < required then WritePhase.finished (.published 0)
            else .evicting budget).request? = none := by
        intro required
        split <;> exact ⟨rfl, rfl⟩
      exact ⟨h.of_unreserved hadvances (hnone rfl) (hafter _).1,
        .unreserved _ id call shard _ hcall hbefore (hafter _) hadvances⟩
  | some chunks =>
      obtain ⟨-, hlength, hfresh, hshard⟩ := hsome chunks rfl
      refine ⟨h.of_phase hadvances ⟨fun found hfound => ?_, fun found written request hfound => ?_⟩
        hshard, .reserved id call budget shard chunks hcall hphase hadvances hindex hfresh⟩
      · cases hfound
        exact hlength
      · cases hfound
        exact call.batch.required_chunks_pos

/-- A call samples and evicts, or gives up. -/
theorem evict_step_spec (h : state.Consistent) (hcall : state.calls.lookup id = some call)
    {budget : EvictionBudget} (hphase : call.phase = .evicting budget)
    (score : ObjectKeyHash → Nat → Int) :
    state.StepOutcome (.evict id score) (state.evictStep id call budget score) := by
  have hbefore : call.phase.chunks? = none ∧ call.phase.request? = none := by
    rw [hphase]
    exact ⟨rfl, rfl⟩
  have hbeside := h.shard_beside hcall
  simp only [WriteCall.owned, hbefore.1, Nat.add_zero] at hbeside
  obtain ⟨sampled, shard, remaining, hevict, hshard, hadvances⟩ :=
    DiskCacheShard.sample_and_evict_spec hbeside context.reclaimSampleSize score budget
  have hafter : (if sampled then WritePhase.reserving remaining
        else .finished (.published 0)).chunks? = none ∧
      (if sampled then WritePhase.reserving remaining
        else .finished (.published 0)).request? = none := by
    split <;> exact ⟨rfl, rfl⟩
  unfold evictStep
  rw [hevict]
  exact ⟨h.of_unreserved hadvances hshard hafter.1,
    .unreserved _ id call shard _ hcall hbefore hafter hadvances⟩

/-- A call publishes all its entries, or none without room for their metadata. -/
theorem publish_step_spec (h : state.Consistent) (hcall : state.calls.lookup id = some call)
    {chunks : ReservedChunks} (hphase : call.phase = .publishing chunks) :
    state.StepOutcome (.publish id) (state.publishStep id call chunks) := by
  have hchunks : call.phase.chunks? = some chunks := by rw [hphase]; rfl
  have hvalid := h.calls id call hcall
  have hbeside := h.shard_beside hcall
  simp only [WriteCall.owned, hchunks] at hbeside
  refine (DiskCacheShard.publish_payload_spec hbeside (hvalid.chunks_lt hchunks)
    call.batch.nonempty call.batch.count_le fun entry hentry =>
      hvalid.placed hchunks hentry).bind ?_
  intro result hresult
  cases result with
  | none =>
      refine ⟨h.of_same_chunks hcall (by rw [hphase]; rfl) ?_ state.requests,
        .unpublished id call chunks hcall hphase⟩
      rintro _ _ _ ⟨⟩
  | some result =>
      obtain ⟨shard, published⟩ := result
      obtain ⟨hshard, hadvances, hrecords, hindexed, hkept, hreserved⟩ :=
        hresult shard published rfl
      refine ⟨h.of_phase hadvances (valid_of_no_chunks rfl) ?_, .published id call chunks shard
        published hcall hphase hadvances hrecords hindexed hkept hreserved⟩
      simpa only [WriteCall.owned, WritePhase.chunks?, Nat.add_zero] using hshard

/-- A call returns its reservation. -/
theorem drop_step_spec (h : state.Consistent) (hcall : state.calls.lookup id = some call)
    {chunks : ReservedChunks} {result : WriteResult}
    (hphase : call.phase = .dropping chunks result) :
    state.StepOutcome (.drop id) (.ok ((state.advance
      { state.shard with allocator := state.shard.allocator.drop chunks } []).setPhase id call
        (.finished result))) := by
  have hchunks : call.phase.chunks? = some chunks := by rw [hphase]; rfl
  have hbeside := h.shard_beside hcall
  simp only [WriteCall.owned, hchunks] at hbeside
  obtain ⟨hshard, hadvances⟩ :=
    DiskCacheShard.drop_chunks_spec ((h.calls id call hcall).chunks_lt hchunks) hbeside
  exact ⟨h.of_unreserved hadvances hshard rfl,
    .dropped id call chunks result hcall hphase hadvances⟩

/-- A step of a call that keeps its reservation. -/
theorem keep_step_spec (h : state.Consistent) (hcall : state.calls.lookup id = some call)
    {action : Action context} {phase : WritePhase} {requests : FiniteMap Nat WriteRequest}
    (hchunks : phase.chunks? = call.phase.chunks?)
    (hwritten : ∀ chunks written request, phase = .writing chunks written request →
      written < call.batch.requiredChunks)
    (hstep : state.Step action ({ state with requests }.setPhase id call phase)) :
    state.StepOutcome action (.ok ({ state with requests }.setPhase id call phase)) :=
  ⟨h.of_same_chunks hcall hchunks hwritten requests, hstep⟩

/-- An action that is not possible changes nothing. -/
theorem idle_step_spec (h : state.Consistent) (action : Action context) :
    state.StepOutcome action (.ok state) :=
  ⟨h, .idle action⟩

/-- Every step of a call keeps the state consistent. -/
theorem call_step_spec (h : state.Consistent) (hcall : state.calls.lookup id = some call)
    {action : Action context} (hid : action.id? = some id) :
    state.StepOutcome action (state.callStep id call action) := by
  have hvalid := h.calls id call hcall
  unfold callStep
  split
  next budget hphase =>
    cases hid
    exact reserve_step_spec h hcall hphase
  next score budget hphase =>
    cases hid
    exact evict_step_spec h hcall hphase score
  next request chunks written hphase =>
    cases hid
    split
    next hnew =>
      refine keep_step_spec h hcall (by rw [hphase]; rfl) ?_
        (.submitted id call chunks written request hcall hphase (by simpa using hnew))
      rintro _ _ _ ⟨⟩
      exact hvalid.written _ _ _ hphase
    next => exact idle_step_spec h _
  next chunks written request hphase =>
    cases hid
    split
    next hdone =>
      obtain ⟨found, hfound, hpending⟩ : ∃ found, state.requests.lookup request = some found ∧
          found.pending = ∅ := by
        simpa [Option.any_eq_true_iff_get, Option.eq_some_iff_get_eq] using hdone
      refine keep_step_spec h hcall ?_ ?_
        (.completed id call chunks written request found hcall hphase hfound hpending)
      · rw [hphase]
        split <;> rfl
      · intro other next more hnext
        split at hnext
        next hless =>
          cases hnext
          have hlength := hvalid.length chunks (by rw [hphase]; rfl)
          simp only [ReservedChunks.chunkCount] at hless
          omega
        next => cases hnext
    next => exact idle_step_spec h _
  next chunks written request hphase =>
    cases hid
    refine keep_step_spec h hcall (by rw [hphase]; rfl) ?_
      (.failed id call chunks written request hcall hphase)
    rintro _ _ _ ⟨⟩
  next chunks written request hphase =>
    cases hid
    refine keep_step_spec h hcall (by rw [hphase]; rfl) ?_
      (.cancelled id call chunks written request hcall hphase)
    rintro _ _ _ ⟨⟩
  next chunks hphase =>
    cases hid
    exact publish_step_spec h hcall hphase
  next chunks result hphase =>
    cases hid
    exact drop_step_spec h hcall hphase
  next => exact idle_step_spec h _

/-! ## The steps of a round -/

/-- A change of marks and flags keeps the shard consistent. -/
theorem Consistent.of_reflagged (h : state.Consistent) {metadata : MetadataChunks}
    (hsame : state.shard.metadataPages.Reflagged metadata) :
    DiskCacheShard.Consistent context { state.shard with metadataPages := metadata }
      DiskCacheShard.noPending state.inFlight where
  accounted :=
    { accounts := h.shard.accounted.accounts.congr (fun _ => rfl) fun chunk => by
        dsimp only
        rw [hsame.owned]
      contained := h.shard.accounted.contained
      capacity := h.shard.accounted.capacity }
  chained :=
    { linked := hsame.linked h.shard.chained.linked
      single := fun index chunk hchunk => by
        obtain ⟨same, hfound, hreserved, -, -⟩ := hsame.chunk hchunk
        rw [← hreserved]
        exact h.shard.chained.single index same hfound
      head := fun chunk hchunk => by
        obtain ⟨same, hfound, hreserved, -, -⟩ := hsame.chunk hchunk
        rw [← hreserved]
        exact h.shard.chained.head same hfound
      bootstrap := fun hempty => by
        have hlength := hsame.length_eq
        rw [show metadata.chunks = [] from hempty] at hlength
        exact h.shard.chained.bootstrap (List.length_eq_zero_iff.mp hlength.symm) }
  agreed :=
    { slot := fun key record location hentry => by
        rw [hsame.record]
        exact h.shard.agreed.slot key record location hentry
      indexed := fun location record _ hrecord => by
        rw [hsame.record] at hrecord
        exact h.shard.agreed.indexed location record trivial hrecord
      routed := h.shard.agreed.routed
      ranked := h.shard.agreed.ranked }
  counted := hsame.counted h.shard.counted

/-- A round takes the dirty pages. -/
theorem start_round_spec (h : state.Consistent) :
    state.StepOutcome .startRound state.startRoundStep := by
  unfold startRoundStep
  split
  next => exact idle_step_spec h _
  next hround =>
    have htake : Outcome (Panic.Unindexable context.chunkCount)
        (fun taken => taken = ({ state.shard.metadataPages with dirtyPages := ∅ },
          state.shard.metadataPages.roundWrites context.hash))
        (state.shard.metadataPages.takeDirtyPages context.hash) := by
      refine (MetadataChunks.take_dirty_pages_spec h.dirty).weaken ?_
      rintro panic ⟨hpanic, hwide⟩
      exact ⟨hpanic, hwide.trans_le h.shard.length_le⟩
    refine htake.bind ?_
    rintro _ rfl
    refine ⟨⟨h.of_reflagged (.of_take _ _), h.calls, by simp,
      fun writes hwrites write hwrite => ?_⟩,
      .roundStarted hround⟩
    dsimp only at hwrites
    split at hwrites
    next => cases hwrites
    next =>
      cases hwrites
      obtain ⟨page, hpage, hpageWrite⟩ := MetadataChunks.mem_round_writes.mp hwrite
      obtain ⟨chunk, hchunk, hindex, -⟩ := MetadataChunks.page_write_some hpageWrite
      rw [hindex]
      exact (List.getElem?_eq_some_iff.mp hchunk).1

/-- A page of the round reaches the file. -/
theorem persist_metadata_spec (h : state.Consistent) (position : Nat) :
    state.StepOutcome (.persistMetadata position) (.ok (state.persistMetadataStep position)) := by
  unfold persistMetadataStep
  split
  next write rest hround =>
    rcases write.request.persist_cases position .metadata state.file with
      ⟨contents, hcontents, hpending, hpersist⟩ | hpersist
    · rw [hpersist]
      refine ⟨⟨h.shard, h.calls, h.dirty, fun writes hwrites other hother => ?_⟩,
        .metadataPersisted position write rest contents hround hcontents hpending⟩
      cases hwrites
      rcases List.mem_cons.mp hother with rfl | hother
      · exact h.round _ hround write List.mem_cons_self
      · exact h.round _ hround other (List.mem_cons_of_mem _ hother)
    · rw [hpersist]
      dsimp only
      rw [← hround]
      exact idle_step_spec h _
  next => exact idle_step_spec h _

/-- A write of the round is complete. -/
theorem complete_metadata_spec (h : state.Consistent) :
    state.StepOutcome .completeMetadata state.completeMetadataStep := by
  unfold completeMetadataStep
  split
  next write rest hround =>
    split
    next hdone =>
      have hindex := h.round _ hround write List.mem_cons_self
      rw [MetadataChunks.finish_write_spec hindex]
      have hsame := MetadataChunks.Reflagged.of_finish state.shard.metadataPages write.chunkIndex
        fun flag => flag && !write.fullChunk
      refine ⟨⟨h.of_reflagged hsame, h.calls, fun page hpage => ?_,
        fun writes hwrites other hother => ?_⟩,
        .metadataCompleted write rest hround hdone⟩
      · exact ⟨hsame.length_eq ▸ (h.dirty page hpage).1, (h.dirty page hpage).2⟩
      · dsimp only at hwrites
        split at hwrites
        next => cases hwrites
        next =>
          cases hwrites
          refine lt_of_lt_of_eq ?_ hsame.length_eq.symm
          exact h.round _ hround other (List.mem_cons_of_mem _ hother)
    next => exact idle_step_spec h _
  next => exact idle_step_spec h _

/-! ## All steps and runs -/

/-- Every step of a consistent state keeps it consistent and is one of the steps above. -/
theorem step_spec (h : state.Consistent) (action : Action context) :
    state.StepOutcome action (state.step action) := by
  cases action with
  | call id batch =>
      unfold step
      dsimp only
      split
      next hnew =>
        have hnone : state.calls.lookup id = none := by simpa using hnew
        refine ⟨h.of_advance (.refl _) rfl ?_ (h.calls_insert (valid_of_no_chunks rfl)),
          .called id batch hnone⟩
        have hflight : ({ state with calls := state.calls.insert id ⟨batch, .reserving .full⟩ } :
            ShardState context).inFlight = state.inFlight := by
          funext chunk
          refine (FiniteMap.tally_insert_new _ _ hnone).trans ?_
          simp only [WriteCall.owned, WritePhase.chunks?, Nat.zero_add]
          rfl
        rw [hflight]
        exact h.shard
      next => exact idle_step_spec h _
  | persist request position =>
      unfold step
      dsimp only
      split
      next found hfound =>
        rcases found.persist_cases position .payload state.file with
          ⟨contents, hcontents, hpending, hpersist⟩ | hpersist
        · rw [hpersist]
          exact ⟨⟨h.shard, h.calls, h.dirty, h.round⟩,
            .persisted request position found contents hfound hcontents hpending⟩
        · rw [hpersist]
          dsimp only
          rw [← FiniteMap.insert_erase, FiniteMap.insert_erase_self hfound]
          exact idle_step_spec h _
      next => exact idle_step_spec h _
  | remove key =>
      obtain ⟨shard, hremove, hshard, hadvances, -⟩ := DiskCacheShard.remove_entry_spec h.shard key
      simp only [step, hremove, ok_bind]
      exact ⟨h.of_advance hadvances rfl hshard h.calls, .changed _ shard hadvances⟩
  | share key read =>
      obtain ⟨hshard, hadvances⟩ := DiskCacheShard.share_read_spec h.shard key read
      exact ⟨h.of_advance hadvances rfl hshard h.calls, .changed _ _ hadvances⟩
  | grow count =>
      refine (DiskCacheShard.ensure_free_slots_spec h.shard count).bind fun result hresult => ?_
      cases result with
      | none => exact idle_step_spec h _
      | some shard =>
          obtain ⟨hshard, hadvances, -⟩ := hresult shard rfl
          exact ⟨h.of_advance hadvances rfl hshard h.calls, .changed _ shard hadvances⟩
  | startRound => exact start_round_spec h
  | persistMetadata position => exact persist_metadata_spec h position
  | completeMetadata => exact complete_metadata_spec h
  | failMetadata =>
      refine ⟨⟨h.shard, h.calls, h.dirty, fun writes hwrites => ?_⟩, .roundFailed⟩
      cases hwrites
  | reserve id | evict id _ | submit id _ | complete id | fail id | cancel id | publish id
  | drop id =>
      unfold step
      dsimp only [Action.id?]
      split
      next call hcall => exact call_step_spec h hcall rfl
      next => exact idle_step_spec h _

end ShardState

end Feuer.Storage
