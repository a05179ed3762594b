import Feuer.Storage.SessionRuns

/-!
# Submitted payload requests and the chunks they write

Every submitted request belongs to one call. While the call is waiting for it, the request writes
the next chunk of the call's own reservation, which is no one else's. A call that is dropped gives
up its reservation and leaves its request behind, and then nothing ties the request to a chunk that
is still reserved for it.
-/

namespace Feuer.Storage

open Lib

variable {context : ShardContext}

/-- Submitted requests and calls belong together. -/
structure Served (calls : FiniteMap Nat (WriteCall context))
    (requests : FiniteMap Nat WriteRequest) : Prop where
  owner : ∀ request found, requests.lookup request = some found →
    ∃ id call, calls.lookup id = some call ∧ call.phase.request? = some request
  present : ∀ id call request, calls.lookup id = some call →
    call.phase.request? = some request → (requests.lookup request).isSome
  unique : ∀ id call other second request, calls.lookup id = some call →
    calls.lookup other = some second → call.phase.request? = some request →
      second.phase.request? = some request → id = other
  issued : ∀ id call chunks written request found, calls.lookup id = some call →
    call.phase = .writing chunks written (some request) →
      requests.lookup request = some found →
        found.firstPage = (chunks.chunkNumbers.start + written) * pagesPerChunk ∧
          found.pages = call.batch.chunkPages written

namespace Served

variable {calls : FiniteMap Nat (WriteCall context)} {requests : FiniteMap Nat WriteRequest}
  {id : Nat} {call : WriteCall context} {phase : WritePhase}

/-- A call moves on with the same request, or without one. -/
theorem same_request (h : Served calls requests) (hcall : calls.lookup id = some call)
    (hrequest : phase.request? = call.phase.request?)
    (hphase : ∀ chunks written request, phase ≠ .writing chunks written (some request)) :
    Served (calls.insert id { call with phase }) requests where
  owner request found hfound := by
    obtain ⟨owner, first, hfirst, hsome⟩ := h.owner request found hfound
    by_cases howner : owner = id
    · subst howner
      rw [hcall, Option.some.injEq] at hfirst
      subst hfirst
      exact ⟨owner, _, by rw [FiniteMap.lookup_insert_eq, if_pos rfl], hrequest.trans hsome⟩
    · exact ⟨owner, first, by rw [FiniteMap.lookup_insert_eq, if_neg howner, hfirst], hsome⟩
  present other second request hsecond hsome := by
    rw [FiniteMap.lookup_insert_eq] at hsecond
    split at hsecond
    next =>
      cases hsecond
      exact h.present id call request hcall (hrequest ▸ hsome)
    next => exact h.present other second request hsecond hsome
  unique first left second right request hleft hright hsome hsome' := by
    rw [FiniteMap.lookup_insert_eq] at hleft hright
    split at hleft
    next hfirst =>
      cases hleft
      split at hright
      next hsecond => rw [hfirst, hsecond]
      next =>
        rw [hfirst]
        exact h.unique id call second right request hcall hright (hrequest ▸ hsome) hsome'
    next =>
      split at hright
      next hsecond =>
        cases hright
        rw [hsecond]
        exact h.unique first left id call request hleft hcall hsome (hrequest ▸ hsome')
      next => exact h.unique first left second right request hleft hright hsome hsome'
  issued other second chunks written request found hsecond hwriting hfound := by
    rw [FiniteMap.lookup_insert_eq] at hsecond
    split at hsecond
    next =>
      cases hsecond
      exact absurd hwriting (hphase chunks written request)
    next => exact h.issued other second chunks written request found hsecond hwriting hfound

/-- A new call has no request. -/
theorem new_call (h : Served calls requests) (hnew : calls.lookup id = none)
    (batch : PayloadBatch context) (budget : EvictionBudget) :
    Served (calls.insert id ⟨batch, .reserving budget⟩) requests where
  owner request found hfound := by
    obtain ⟨owner, first, hfirst, hsome⟩ := h.owner request found hfound
    have howner : owner ≠ id := by
      rintro rfl
      rw [hnew] at hfirst
      cases hfirst
    exact ⟨owner, first, by rw [FiniteMap.lookup_insert_eq, if_neg howner, hfirst], hsome⟩
  present other second request hsecond hsome := by
    rw [FiniteMap.lookup_insert_eq] at hsecond
    split at hsecond
    next =>
      cases hsecond
      cases hsome
    next => exact h.present other second request hsecond hsome
  unique first left second right request hleft hright hsome hsome' := by
    rw [FiniteMap.lookup_insert_eq] at hleft hright
    split at hleft
    next =>
      cases hleft
      cases hsome
    next =>
      split at hright
      next =>
        cases hright
        cases hsome'
      next => exact h.unique first left second right request hleft hright hsome hsome'
  issued other second chunks written request found hsecond hwriting hfound := by
    rw [FiniteMap.lookup_insert_eq] at hsecond
    split at hsecond
    next =>
      cases hsecond
      cases hwriting
    next => exact h.issued other second chunks written request found hsecond hwriting hfound

/-- A call without a request submits one. -/
theorem submit (h : Served calls requests) (hcall : calls.lookup id = some call)
    (hnone : call.phase.request? = none) {request : Nat} (hnew : requests.lookup request = none)
    (chunks : ReservedChunks) (written : Nat) :
    Served (calls.insert id { call with phase := .writing chunks written (some request) })
      (requests.insert request (.new ((chunks.chunkNumbers.start + written) * pagesPerChunk)
        (call.batch.chunkPages written))) where
  owner other found hfound := by
    rw [FiniteMap.lookup_insert_eq] at hfound
    split at hfound
    next hsame =>
      exact ⟨id, _, by rw [FiniteMap.lookup_insert_eq, if_pos rfl], by rw [hsame]; rfl⟩
    next =>
      obtain ⟨owner, first, hfirst, hsome⟩ := h.owner other found hfound
      have howner : owner ≠ id := by
        rintro rfl
        rw [hcall, Option.some.injEq] at hfirst
        subst hfirst
        rw [hnone] at hsome
        cases hsome
      exact ⟨owner, first, by rw [FiniteMap.lookup_insert_eq, if_neg howner, hfirst], hsome⟩
  present other second found hsecond hsome := by
    rw [FiniteMap.lookup_insert_eq] at hsecond ⊢
    split at hsecond
    next =>
      cases hsecond
      cases hsome
      simp
    next =>
      split
      next => rfl
      next => exact h.present other second found hsecond hsome
  unique first left second right other hleft hright hsome hsome' := by
    -- No call has the new request yet, since it is not among the submitted ones.
    have hfresh : ∀ index found, calls.lookup index = some found →
        found.phase.request? ≠ some request := by
      intro index found hfound hrequest
      have := h.present index found request hfound hrequest
      rw [hnew] at this
      cases this
    rw [FiniteMap.lookup_insert_eq] at hleft hright
    split at hleft
    next hfirst =>
      cases hleft
      cases hsome
      split at hright
      next hsecond => rw [hfirst, hsecond]
      next => exact absurd hsome' (hfresh second right hright)
    next =>
      split at hright
      next =>
        cases hright
        cases hsome'
        exact absurd hsome (hfresh first left hleft)
      next => exact h.unique first left second right other hleft hright hsome hsome'
  issued other second chunks' written' found wanted hsecond hwriting hfound := by
    rw [FiniteMap.lookup_insert_eq] at hsecond hfound
    split at hsecond
    next =>
      cases hsecond
      cases hwriting
      rw [if_pos rfl] at hfound
      cases hfound
      exact ⟨rfl, rfl⟩
    next =>
      split at hfound
      next hsame =>
        have := h.present other second found hsecond (by rw [hwriting]; rfl)
        rw [hsame, hnew] at this
        cases this
      next => exact h.issued other second chunks' written' found wanted hsecond hwriting hfound

/-- A page of a request reaches the file. -/
theorem persist (h : Served calls requests) {request : Nat} {found : WriteRequest}
    (hfound : requests.lookup request = some found) (pending : Finset Nat) :
    Served calls (requests.insert request { found with pending }) where
  owner other wanted hwanted := by
    rw [FiniteMap.lookup_insert_eq] at hwanted
    split at hwanted
    next hsame =>
      rw [hsame]
      exact h.owner request found hfound
    next => exact h.owner other wanted hwanted
  present other second wanted hsecond hsome := by
    rw [FiniteMap.lookup_insert_eq]
    split
    next => rfl
    next => exact h.present other second wanted hsecond hsome
  unique := h.unique
  issued other second chunks written wanted result hsecond hwriting hresult := by
    rw [FiniteMap.lookup_insert_eq] at hresult
    split at hresult
    next hsame =>
      cases hresult
      rw [hsame] at hwriting
      exact h.issued other second chunks written request found hsecond hwriting hfound
    next => exact h.issued other second chunks written wanted result hsecond hwriting hresult

/-- The request of a call is over, and the call moves on without one. -/
theorem finish (h : Served calls requests) (hcall : calls.lookup id = some call) {request : Nat}
    (hrequest : call.phase.request? = some request) (hphase : phase.request? = none) :
    Served (calls.insert id { call with phase }) (requests.erase request) where
  owner other found hfound := by
    obtain ⟨hne, hfound⟩ := FiniteMap.lookup_erase_eq_some.mp hfound
    obtain ⟨owner, first, hfirst, hsome⟩ := h.owner other found hfound
    have howner : owner ≠ id := by
      rintro rfl
      rw [hcall, Option.some.injEq] at hfirst
      subst hfirst
      rw [hrequest, Option.some.injEq] at hsome
      exact hne hsome.symm
    exact ⟨owner, first, by rw [FiniteMap.lookup_insert_eq, if_neg howner, hfirst], hsome⟩
  present other second found hsecond hsome := by
    rw [FiniteMap.lookup_insert_eq] at hsecond
    split at hsecond
    next =>
      cases hsecond
      rw [hphase] at hsome
      cases hsome
    next hne =>
      rw [FiniteMap.lookup_erase_eq, if_neg]
      · exact h.present other second found hsecond hsome
      · rintro rfl
        exact hne (h.unique other second id call found hsecond hcall hsome hrequest)
  unique first left second right other hleft hright hsome hsome' := by
    rw [FiniteMap.lookup_insert_eq] at hleft hright
    split at hleft
    next =>
      cases hleft
      rw [hphase] at hsome
      cases hsome
    next =>
      split at hright
      next =>
        cases hright
        rw [hphase] at hsome'
        cases hsome'
      next => exact h.unique first left second right other hleft hright hsome hsome'
  issued other second chunks written wanted result hsecond hwriting hresult := by
    rw [FiniteMap.lookup_insert_eq] at hsecond
    rw [FiniteMap.lookup_erase_eq] at hresult
    split at hsecond
    next =>
      cases hsecond
      rw [show phase = _ from hwriting] at hphase
      cases hphase
    next =>
      split at hresult
      next => cases hresult
      next => exact h.issued other second chunks written wanted result hsecond hwriting hresult

end Served

namespace ShardState

variable {state next : ShardState context} {action : Action context}

/-- A step keeps requests and calls together. -/
theorem Step.served (hstep : state.Step action next) (h : Served state.calls state.requests) :
    Served next.calls next.requests := by
  cases hstep with
  | idle => exact h
  | called id batch hnew => exact h.new_call hnew batch _
  | changed => exact h
  | unreserved _ id call shard phase hcall hbefore hafter hadvances =>
      refine h.same_request hcall (hafter.2.trans hbefore.2.symm)
        fun chunks written request hphase => ?_
      rw [hphase] at hafter
      cases hafter.2
  | reserved id call budget shard chunks hcall hphase =>
      refine h.same_request hcall (by rw [hphase]; rfl) ?_
      rintro _ _ _ ⟨⟩
  | submitted id call chunks written request hcall hphase hnew =>
      exact h.submit hcall (by rw [hphase]; rfl) hnew chunks written
  | persisted request position found contents hfound => exact h.persist hfound _
  | completed id call chunks written request found hcall hphase =>
      refine h.finish hcall (by rw [hphase]; rfl) ?_
      split <;> rfl
  | failed id call chunks written request hcall hphase =>
      cases request with
      | none =>
          refine h.same_request hcall (by rw [hphase]; rfl) ?_
          rintro _ _ _ ⟨⟩
      | some request => exact h.finish hcall (by rw [hphase]; rfl) rfl
  | cancelled id call chunks written request hcall hphase =>
      refine h.same_request hcall (by rw [hphase]; rfl) ?_
      rintro _ _ _ ⟨⟩
  | published id call chunks shard published hcall hphase =>
      refine h.same_request hcall (by rw [hphase]; rfl) ?_
      rintro _ _ _ ⟨⟩
  | unpublished id call chunks hcall hphase =>
      refine h.same_request hcall (by rw [hphase]; rfl) ?_
      rintro _ _ _ ⟨⟩
  | dropped id call chunks result hcall hphase =>
      refine h.same_request hcall (by rw [hphase]; cases result <;> rfl) ?_
      rintro _ _ _ ⟨⟩
  | roundStarted => exact h
  | metadataPersisted => exact h
  | metadataCompleted => exact h
  | roundFailed => exact h

/-- The chunk of a page inside a chunk-sized request. -/
theorem chunk_of_page (chunk : Nat) {position : Nat} (hposition : position < pagesPerChunk) :
    (chunk * pagesPerChunk + position) / pagesPerChunk = chunk := by
  rw [Nat.mul_comm, Nat.mul_add_div (by decide), Nat.div_eq_of_lt hposition, Nat.add_zero]

/-- While a call waits for its request, the request writes a chunk of the call's reservation. -/
theorem in_flight_of_writing (h : state.Consistent) (hserved : Served state.calls state.requests)
    {id : Nat} {call : WriteCall context} (hcall : state.calls.lookup id = some call)
    {chunks : ReservedChunks} {written request : Nat}
    (hphase : call.phase = .writing chunks written (some request)) {found : WriteRequest}
    (hfound : state.requests.lookup request = some found) {position : Nat} {contents : Page}
    (hcontents : found.pages[position]? = some contents) :
    (found.firstPage + position) / pagesPerChunk = chunks.chunkNumbers.start + written ∧
      0 < call.owned ((found.firstPage + position) / pagesPerChunk) := by
  obtain ⟨hfirst, hpages⟩ := hserved.issued id call chunks written request found hcall hphase hfound
  rw [hpages] at hcontents
  obtain ⟨hposition, -⟩ := call.batch.getElem?_chunk_pages hcontents
  have hchunk := chunk_of_page (chunks.chunkNumbers.start + written) hposition
  rw [← hfirst] at hchunk
  have hlength := (h.calls id call hcall).length chunks (by rw [hphase]; rfl)
  have hwritten := (h.calls id call hcall).written chunks written (some request) hphase
  refine ⟨hchunk, ?_⟩
  rw [hchunk, WriteCall.owned, hphase]
  exact Range.covers_pos_iff.mpr ⟨Nat.le_add_right _ _, by omega⟩

end ShardState

end Feuer.Storage
