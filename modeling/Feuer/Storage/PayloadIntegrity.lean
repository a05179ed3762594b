import Feuer.Storage.DiskWrites
import Feuer.Storage.RunInvariants

/-!
# Published payloads stay on the file

Payload pages go to chunks that their call has reserved, and metadata pages to metadata chunks. The
storage of an indexed entry lies in a payload reservation, which is neither, so nothing is written
over it while the entry is indexed. A call publishes only after all its pages have reached the file,
so the bytes at an entry's address are the bytes that its batch holds for it.
-/

namespace Feuer.Storage

open Lib

variable {context : ShardContext}

/-! ## Bytes of the file -/

/-- The bytes of the file at an address. -/
def Disk.bytes (disk : Disk) (address length : Nat) : List UInt8 :=
  (List.range length).map fun offset => disk.byte (address + offset)

/-- The chunk of an address is the chunk of its page. -/
theorem page_div (address : Nat) : address / pageBytes / pagesPerChunk = address / chunkBytes := by
  rw [Nat.div_div_eq_div_mul, chunk_bytes_eq, Nat.mul_comm]

/-- A page of another chunk leaves the bytes alone. -/
theorem Disk.bytes_update {disk : Disk} {page : Nat} (contents : Page) {address length : Nat}
    (h : ∀ offset < length, (address + offset) / chunkBytes ≠ page / pagesPerChunk) :
    Disk.bytes (Function.update disk page contents) address length =
      Disk.bytes disk address length := by
  refine List.map_congr_left fun offset hoffset => ?_
  rw [List.mem_range] at hoffset
  have hpage : (address + offset) / pageBytes ≠ page := by
    intro hsame
    apply h offset hoffset
    rw [← page_div, hsame]
  show (Function.update disk page contents ((address + offset) / pageBytes)).byte _ = _
  rw [Function.update_of_ne hpage]
  rfl

/-! ## Owners of chunks -/

namespace ShardState

variable {state next : ShardState context} {action : Action context}

/-- Every chunk under the storage of an indexed entry is held for payloads. -/
theorem Consistent.held_of_placement (h : state.Consistent) {key : ObjectKeyHash}
    {record : EntryMetadata} {location : EntryMetadataLocation}
    (hentry : state.shard.entryIndex.placement? key = some (record, location)) {offset : Nat}
    (hoffset : offset < payloadDiskBytes record.payloadLen) :
    0 < state.shard.allocator.payloadOwned ((record.payloadAddress + offset) / chunkBytes) := by
  obtain ⟨reserved, hreserved, hstop⟩ := h.shard.accounted.contained key record location hentry
  obtain ⟨⟨found, count⟩, hlookup, hfound⟩ := Option.map_eq_some_iff.mp hreserved
  cases hfound
  obtain ⟨hstart, -, -⟩ := h.shard.accounted.accounts.reservation _ found count hlookup
  refine lt_of_lt_of_le ?_ (DiskChunkAllocator.reservation_covers hlookup _)
  refine Range.covers_pos_iff.mpr ⟨?_, ?_⟩
  · rw [hstart]
    exact Nat.div_le_div_right (Nat.le_add_right _ _)
  · apply Nat.div_lt_of_lt_mul
    rw [Nat.mul_comm]
    refine lt_of_lt_of_le ?_ hstop
    show record.payloadAddress + offset < record.payloadAddress + payloadDiskBytes record.payloadLen
    omega

/-- A chunk that a call or the metadata chain owns is not under the storage of an indexed entry. -/
theorem Consistent.storage_apart (h : state.Consistent) {chunk : Nat}
    (howned : 0 < state.shard.metadataPages.owned chunk + state.inFlight chunk)
    {key : ObjectKeyHash} {record : EntryMetadata} {location : EntryMetadataLocation}
    (hentry : state.shard.entryIndex.placement? key = some (record, location)) (offset : Nat)
    (hoffset : offset < payloadDiskBytes record.payloadLen) :
    (record.payloadAddress + offset) / chunkBytes ≠ chunk := by
  rintro rfl
  have hheld := h.held_of_placement hentry hoffset
  have hpartition := h.chunks_owned.partition ((record.payloadAddress + offset) / chunkBytes)
  have hone := context.chunks.covers_le_one ((record.payloadAddress + offset) / chunkBytes)
  omega

/-- Two calls hold different chunks. -/
theorem Consistent.calls_apart (h : state.Consistent) {id other : Nat}
    {call second : WriteCall context} (hcall : state.calls.lookup id = some call)
    (hsecond : state.calls.lookup other = some second) (hne : id ≠ other) {chunk : Nat}
    (howned : 0 < call.owned chunk) : second.owned chunk = 0 := by
  have htwo : call.owned chunk + second.owned chunk ≤ state.inFlight chunk :=
    FiniteMap.add_le_tally (fun _ call => call.owned chunk) hcall hsecond hne
  have hpartition := h.chunks_owned.partition chunk
  have hone := context.chunks.covers_le_one chunk
  omega

theorem Consistent.owned_le (_h : state.Consistent) {id : Nat} {call : WriteCall context}
    (hcall : state.calls.lookup id = some call) (chunk : Nat) :
    call.owned chunk ≤ state.inFlight chunk :=
  FiniteMap.le_tally (fun _ call => call.owned chunk) hcall

/-- A call holds no metadata chunk. -/
theorem Consistent.call_apart (h : state.Consistent) {id : Nat} {call : WriteCall context}
    (hcall : state.calls.lookup id = some call) {chunk : Nat}
    (howned : 0 < state.shard.metadataPages.owned chunk) : call.owned chunk = 0 := by
  have hle := h.owned_le hcall chunk
  have hpartition := h.chunks_owned.partition chunk
  have hone := context.chunks.covers_le_one chunk
  omega

/-- The chunk of a metadata write is a metadata chunk. -/
theorem Consistent.metadata_owned (h : state.Consistent) {index : Nat} {chunk : MetadataChunk}
    (hchunk : state.shard.metadataPages.chunks[index]? = some chunk) :
    0 < state.shard.metadataPages.owned chunk.reservedChunk.chunkNumbers.start := by
  refine lt_of_lt_of_le ?_ (MetadataChunks.covers_le_owned (List.mem_of_getElem? hchunk) _)
  have hsingle := h.shard.chained.single index chunk hchunk
  exact Range.covers_pos_iff.mpr ⟨le_rfl, by omega⟩

/-! ## Pages of calls -/

end ShardState

/-- A chunk of the payload is on the file. -/
def PayloadBatch.OnDisk (batch : PayloadBatch context) (disk : Disk) (start index : Nat) : Prop :=
  ∀ position < pagesPerChunk, disk ((start + index) * pagesPerChunk + position) =
    batch.page (index * pagesPerChunk + position)

/-- The pages that a call has written are on the file. -/
def WriteCall.Persisted (call : WriteCall context) (requests : FiniteMap Nat WriteRequest)
    (disk : Disk) : Prop :=
  match call.phase with
  | .writing chunks written request =>
      (∀ index < written, call.batch.OnDisk disk chunks.chunkNumbers.start index) ∧
        ∀ submitted found position, request = some submitted →
          requests.lookup submitted = some found → position < pagesPerChunk →
            position ∉ found.pending →
              disk ((chunks.chunkNumbers.start + written) * pagesPerChunk + position) =
                call.batch.page (written * pagesPerChunk + position)
  | .publishing chunks =>
      ∀ index < call.batch.requiredChunks, call.batch.OnDisk disk chunks.chunkNumbers.start index
  | _ => True

namespace WriteCall

variable {call : WriteCall context} {requests after : FiniteMap Nat WriteRequest} {disk : Disk}

theorem persisted_of_no_chunks (h : call.phase.chunks? = none) : call.Persisted requests disk := by
  unfold Persisted
  split
  next hphase =>
    rw [hphase] at h
    cases h
  next hphase =>
    rw [hphase] at h
    cases h
  next => trivial

/-- A page of a chunk that the call does not hold, and a change of other requests, leave the pages
of the call alone. -/
theorem Persisted.frame (h : call.Persisted requests disk) (hvalid : call.Valid) {disk' : Disk}
    (hdisk : ∀ page, 0 < call.owned (page / pagesPerChunk) → disk' page = disk page)
    (hrequests : ∀ request, call.phase.request? = some request →
      after.lookup request = requests.lookup request) : call.Persisted after disk' := by
  unfold Persisted at h ⊢
  have hpages : ∀ chunks index position, call.phase.chunks? = some chunks →
      index < call.batch.requiredChunks → position < pagesPerChunk →
      disk' ((chunks.chunkNumbers.start + index) * pagesPerChunk + position) =
        disk ((chunks.chunkNumbers.start + index) * pagesPerChunk + position) := by
    intro chunks index position hchunks hindex hposition
    apply hdisk
    have hlength := hvalid.length chunks hchunks
    rw [ShardState.chunk_of_page _ hposition, owned, hchunks]
    exact Range.covers_pos_iff.mpr ⟨Nat.le_add_right _ _, by omega⟩
  split
  next chunks written request hphase =>
    rw [hphase] at h
    obtain ⟨hdone, hnow⟩ := h
    have hwritten := hvalid.written chunks written request hphase
    have hchunks : call.phase.chunks? = some chunks := by rw [hphase]; rfl
    refine ⟨fun index hindex position hposition => ?_,
      fun submitted found position hrequest hfound hposition hpending => ?_⟩
    · rw [hpages chunks index position hchunks (by omega) hposition]
      exact hdone index hindex position hposition
    · rw [hpages chunks written position hchunks hwritten hposition]
      rw [hrequests submitted (by rw [hphase]; exact hrequest)] at hfound
      exact hnow submitted found position hrequest hfound hposition hpending
  next chunks hphase =>
    rw [hphase] at h
    intro index hindex position hposition
    rw [hpages chunks index position (by rw [hphase]; rfl) hindex hposition]
    exact h index hindex position hposition
  next => trivial

end WriteCall

namespace ShardState

variable {state next : ShardState context} {action : Action context}

/-- Every call's pages are on the file as far as it has come. -/
def CallsPersisted (state : ShardState context) : Prop :=
  ∀ id call, state.calls.lookup id = some call →
    call.Persisted state.requests state.file.disk

theorem persisted_insert {calls : FiniteMap Nat (WriteCall context)}
    {requests : FiniteMap Nat WriteRequest} {disk : Disk} (id : Nat) {moved : WriteCall context}
    (hmoved : moved.Persisted requests disk)
    (h : ∀ other call, other ≠ id → calls.lookup other = some call →
      call.Persisted requests disk) (other : Nat) (found : WriteCall context)
    (hfound : (calls.insert id moved).lookup other = some found) :
    found.Persisted requests disk := by
  rw [FiniteMap.lookup_insert_eq] at hfound
  split at hfound
  next =>
    cases hfound
    exact hmoved
  next hne => exact h other found hne hfound

/-- The page of a submitted request belongs to the call that waits for it, and its position becomes
the last one that is missing on the file. -/
theorem CallsPersisted.persist (h : state.CallsPersisted) (hstate : state.Consistent)
    (htracked : state.Tracked) {request position : Nat} {found : WriteRequest} {contents : Page}
    (hfound : state.requests.lookup request = some found)
    (hcontents : found.pages[position]? = some contents) :
    CallsPersisted { state with
      requests := state.requests.insert request
        { found with pending := found.pending.erase position }
      file := state.file.write (found.firstPage + position) contents .payload } := by
  intro other second hsecond
  obtain ⟨id, call, chunks, written, hcall, hphase⟩ := htracked.writer hfound
  obtain ⟨hchunk, howned⟩ :=
    in_flight_of_writing hstate htracked.served hcall hphase hfound hcontents
  obtain ⟨hfirst, hpages⟩ :=
    htracked.served.issued id call chunks written request found hcall hphase hfound
  by_cases hother : other = id
  · subst hother
    obtain rfl : second = call := Option.some.inj (hsecond.symm.trans hcall)
    have hbefore := h other second hsecond
    unfold WriteCall.Persisted at hbefore ⊢
    rw [hphase] at hbefore ⊢
    obtain ⟨hdone, hnow⟩ := hbefore
    rw [hpages] at hcontents
    obtain ⟨hposition, rfl⟩ := second.batch.getElem?_chunk_pages hcontents
    refine ⟨fun index hindex page hpage => ?_,
      fun submitted result page hrequest hresult hpage hpending => ?_⟩
    · -- An earlier chunk of the same call.
      have hne : (chunks.chunkNumbers.start + index) * pagesPerChunk + page ≠
          found.firstPage + position := by
        intro hsame
        have hdiv := congrArg (· / pagesPerChunk) hsame
        simp only [chunk_of_page _ hpage] at hdiv
        omega
      show Function.update state.file.disk _ _ _ = _
      rw [Function.update_of_ne hne]
      exact hdone index hindex page hpage
    · cases hrequest
      rw [FiniteMap.lookup_insert_eq, if_pos rfl] at hresult
      cases hresult
      show Function.update state.file.disk _ _ _ = _
      rw [hfirst]
      by_cases hsame : page = position
      · rw [hsame, Function.update_self]
      · rw [Function.update_of_ne (by omega)]
        refine hnow request found page rfl hfound hpage fun hmem => hpending ?_
        exact Finset.mem_erase.mpr ⟨hsame, hmem⟩
  · refine (h other second hsecond).frame (hstate.calls other second hsecond)
      (fun page hpage => ?_) fun submitted hsubmitted => ?_
    · show Function.update state.file.disk _ _ _ = _
      refine Function.update_of_ne ?_ _ _
      rintro rfl
      have := hstate.calls_apart hcall hsecond (Ne.symm hother) howned
      omega
    · rw [FiniteMap.lookup_insert_eq, if_neg]
      rintro rfl
      refine hother
        (htracked.served.unique other second id call submitted hsecond hcall hsubmitted ?_)
      rw [hphase]
      rfl

/-- A page of a metadata round leaves the pages of calls alone. -/
theorem CallsPersisted.metadata (h : state.CallsPersisted) (hstate : state.Consistent)
    (htracked : state.Tracked) {position : Nat} {write : MetadataWrite}
    {rest : List MetadataWrite} {contents : Page} (hround : state.round = some (write :: rest))
    (hcontents : write.request.pages[position]? = some contents)
    (round : Option (List MetadataWrite)) :
    CallsPersisted { state with
      round
      file := state.file.write (write.request.firstPage + position) contents .metadata } := by
  intro id call hcall
  obtain ⟨chunk, hchunk, hpage⟩ := (htracked.aimed _ hround write List.mem_cons_self).page hcontents
  refine (h id call hcall).frame (hstate.calls id call hcall) (fun page howned => ?_) fun _ _ => rfl
  show Function.update state.file.disk _ _ _ = _
  refine Function.update_of_ne ?_ _ _
  rintro rfl
  rw [hpage, hstate.call_apart hcall (hstate.metadata_owned hchunk)] at howned
  exact absurd howned (lt_irrefl 0)

/-- All pages of the submitted chunk are on the file. -/
theorem CallsPersisted.complete (h : state.CallsPersisted) (hstate : state.Consistent)
    (hserved : Served state.calls state.requests) {id : Nat} {call : WriteCall context}
    {chunks : ReservedChunks} {written request : Nat} {found : WriteRequest}
    (hcall : state.calls.lookup id = some call)
    (hphase : call.phase = .writing chunks written (some request))
    (hfound : state.requests.lookup request = some found) (hdone : found.pending = ∅) :
    CallsPersisted (state.completeStep id call chunks written request) := by
  have hbefore := h id call hcall
  unfold WriteCall.Persisted at hbefore
  rw [hphase] at hbefore
  obtain ⟨hearlier, hnow⟩ := hbefore
  have hall : ∀ index < written + 1,
      call.batch.OnDisk state.file.disk chunks.chunkNumbers.start index := by
    intro index hindex position hposition
    rcases Nat.lt_succ_iff_lt_or_eq.mp hindex with hless | rfl
    · exact hearlier index hless position hposition
    · exact hnow request found position rfl hfound hposition (by simp [hdone])
  have hlength := (hstate.calls id call hcall).length chunks (by rw [hphase]; rfl)
  refine persisted_insert id ?_ fun other second hne hsecond => ?_
  · unfold WriteCall.Persisted
    by_cases hmore : written + 1 < chunks.chunkCount
    · simp only [hmore, if_true]
      exact ⟨hall, fun submitted _ _ hsome => by cases hsome⟩
    · simp only [hmore, if_false]
      intro index hindex
      refine hall index ?_
      simp only [ReservedChunks.chunkCount] at hmore
      omega
  · refine (h other second hsecond).frame (hstate.calls other second hsecond) (fun _ _ => rfl)
      fun submitted hsubmitted => ?_
    show (state.requests.erase request).lookup submitted = _
    rw [FiniteMap.lookup_erase_eq, if_neg]
    rintro rfl
    refine hne (hserved.unique other second id call submitted hsecond hcall hsubmitted ?_)
    rw [hphase]
    rfl

theorem CallsPersisted.submit (h : state.CallsPersisted) (hstate : state.Consistent)
    (hserved : Served state.calls state.requests) {id : Nat} {call : WriteCall context}
    {chunks : ReservedChunks} {written request : Nat}
    (hcall : state.calls.lookup id = some call) (hphase : call.phase = .writing chunks written none)
    (hnew : state.requests.lookup request = none) :
    CallsPersisted (state.submitStep id call chunks written request) := by
  have hbefore := h id call hcall
  unfold WriteCall.Persisted at hbefore
  rw [hphase] at hbefore
  refine persisted_insert id ⟨hbefore.1, ?_⟩ fun other second hne hsecond => ?_
  · intro submitted found position hsome hfound hposition hpending
    cases hsome
    change (state.requests.insert request _).lookup request = some found at hfound
    rw [FiniteMap.lookup_insert_eq, if_pos rfl] at hfound
    cases hfound
    refine absurd ?_ hpending
    show position ∈ Finset.range (call.batch.chunkPages written).length
    simpa [PayloadBatch.chunkPages] using hposition
  · refine (h other second hsecond).frame (hstate.calls other second hsecond) (fun _ _ => rfl)
      fun submitted hsubmitted => ?_
    show (state.requests.insert request _).lookup submitted = _
    rw [FiniteMap.lookup_insert_eq, if_neg]
    rintro rfl
    have := hserved.present other second submitted hsecond hsubmitted
    rw [hnew] at this
    cases this

/-- A step of a run without dropped calls keeps the calls' pages on the file. -/
theorem CallsPersisted.step (h : state.CallsPersisted) (hstate : state.Consistent)
    (htracked : state.Tracked) (hstep : state.Step action next) : next.CallsPersisted := by
  have hbeside : ∀ id other call, other ≠ id → state.calls.lookup other = some call →
      call.Persisted state.requests state.file.disk :=
      fun _ other call _ hcall => h other call hcall
  cases hstep with
  | idle | changed | roundStarted | metadataCompleted | roundFailed => exact h
  | called id batch =>
      exact persisted_insert id (WriteCall.persisted_of_no_chunks rfl) (hbeside id)
  | unreserved _ id call shard phase hcall hbefore hafter =>
      exact persisted_insert id (WriteCall.persisted_of_no_chunks hafter.1) (hbeside id)
  | reserved id call budget shard chunks =>
      refine persisted_insert id ⟨fun index hindex => ?_, fun _ _ _ hsome => ?_⟩ (hbeside id)
      · exact absurd hindex (Nat.not_lt_zero index)
      · cases hsome
  | submitted id call chunks written request hcall hphase hnew =>
      exact h.submit hstate htracked.served hcall hphase hnew
  | persisted request position found contents hfound hcontents =>
      exact h.persist hstate htracked hfound hcontents
  | completed id call chunks written request found hcall hphase hfound hdone =>
      exact h.complete hstate htracked.served hcall hphase hfound hdone
  | failed id call chunks written request hcall hphase =>
      refine persisted_insert id trivial fun other second hne hsecond => ?_
      refine (h other second hsecond).frame (hstate.calls other second hsecond) (fun _ _ => rfl)
        fun submitted hsubmitted => ?_
      cases request with
      | none => rfl
      | some request =>
          show (state.requests.erase request).lookup submitted = _
          rw [FiniteMap.lookup_erase_eq, if_neg]
          rintro rfl
          refine hne (htracked.served.unique other second id call submitted hsecond hcall
            hsubmitted ?_)
          rw [hphase]
          rfl
  | cancelled id => exact persisted_insert id trivial (hbeside id)
  | published id => exact persisted_insert id trivial (hbeside id)
  | unpublished id => exact persisted_insert id trivial (hbeside id)
  | dropped id => exact persisted_insert id trivial (hbeside id)
  | metadataPersisted position write rest contents hround hcontents =>
      exact h.metadata hstate htracked hround hcontents _

end ShardState

end Feuer.Storage
