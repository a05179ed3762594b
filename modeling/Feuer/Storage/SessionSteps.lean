import Feuer.Storage.Session

/-!
# What the steps of a session perform

`step_performs` inverts the transition function: a step does nothing, or it performs one operation
of the shard, of a request, or of the metadata round, and the relations name the operation with its
result. `Moves` are the outcomes of a call's own step. Facts about all steps are proved by cases on
these relations, and nothing here needs the shard to be consistent.
-/

namespace Feuer.Storage

open Lib

/-- A step of a metadata round that does not fail it. -/
def Action.OfRound {context : ShardContext} : Action context → Bool
  | .startRound | .persistMetadata _ | .completeMetadata => true
  | _ => false

namespace ShardState

variable {context : ShardContext} {state next : ShardState context} {action : Action context}
  {id : Nat} {call : WriteCall context}

/-! ## What a step can do -/

/-- The shard with a new `write_payload` call. -/
def called (state : ShardState context) (id : Nat) (batch : PayloadBatch context) :
    ShardState context :=
  { state with calls := state.calls.insert id ⟨batch, .reserving .full⟩ }

theorem step_call (hnew : state.calls.lookup id = none) (batch : PayloadBatch context) :
    state.step (.call id batch) = .ok (state.called id batch) := by
  simp only [step, hnew, Option.isNone_none, if_true]
  rfl

theorem lookup_called (batch : PayloadBatch context) (other : Nat) :
    (state.called id batch).calls.lookup other =
      if other = id then some ⟨batch, .reserving .full⟩ else state.calls.lookup other :=
  FiniteMap.lookup_insert_eq _ _ _ _

/-- What a step of a call does, and the phase that it leaves the call in. -/
inductive Moves (state : ShardState context) (id : Nat) (call : WriteCall context) :
    Action context → WritePhase → ShardState context → Prop where
  /-- The call is not in the phase that the action is for, or its request is not ready. -/
  | idle (action : Action context)
      (hreserve : ∀ other budget, action = .reserve other → call.phase ≠ .reserving budget)
      (hevict : ∀ other score budget, action = .evict other score → call.phase ≠ .evicting budget) :
      Moves state id call action call.phase state
  | reserved (other : Nat) (budget : EvictionBudget) (shard : DiskCacheShard)
      (chunks : ReservedChunks) (hphase : call.phase = .reserving budget)
      (hreserve : state.shard.reserveForPayload call.batch.entries.length
        call.batch.requiredChunks = .ok (shard, some chunks)) :
      Moves state id call (.reserve other) (.writing chunks 0 none)
        ((state.advance shard []).setPhase id call (.writing chunks 0 none))
  | refused (other : Nat) (budget : EvictionBudget) (shard : DiskCacheShard)
      (hphase : call.phase = .reserving budget)
      (hreserve : state.shard.reserveForPayload call.batch.entries.length
        call.batch.requiredChunks = .ok (shard, none))
      (hroom : ¬ shard.payloadChunkCapacity < call.batch.requiredChunks) :
      Moves state id call (.reserve other) (.evicting budget)
        ((state.advance shard []).setPhase id call (.evicting budget))
  /-- The payload needs more chunks than the shard has. -/
  | oversized (other : Nat) (budget : EvictionBudget) (shard : DiskCacheShard)
      (hphase : call.phase = .reserving budget)
      (hreserve : state.shard.reserveForPayload call.batch.entries.length
        call.batch.requiredChunks = .ok (shard, none))
      (hroom : shard.payloadChunkCapacity < call.batch.requiredChunks) :
      Moves state id call (.reserve other) (.finished (.published 0))
        ((state.advance shard []).setPhase id call (.finished (.published 0)))
  | evicted (other : Nat) (score : ObjectKeyHash → Nat → Int) (budget : EvictionBudget)
      (sampled : Bool) (shard : DiskCacheShard) (remaining : EvictionBudget)
      (hphase : call.phase = .evicting budget)
      (hevict : state.shard.sampleAndEvictEntry context.reclaimSampleSize score budget =
        .ok (sampled, shard, remaining)) :
      Moves state id call (.evict other score)
        (if sampled then .reserving remaining else .finished (.published 0))
        ((state.advance shard []).setPhase id call
          (if sampled then .reserving remaining else .finished (.published 0)))
  | submitted (other request : Nat) (chunks : ReservedChunks) (written : Nat)
      (hphase : call.phase = .writing chunks written none)
      (hnew : state.requests.lookup request = none) :
      Moves state id call (.submit other request) (.writing chunks written (some request))
        (state.submitStep id call chunks written request)
  | completed (other : Nat) (chunks : ReservedChunks) (written request : Nat)
      (hphase : call.phase = .writing chunks written (some request)) :
      Moves state id call (.complete other)
        (if written + 1 < chunks.chunkCount then .writing chunks (written + 1) none
          else .publishing chunks)
        (state.completeStep id call chunks written request)
  | failed (other : Nat) (chunks : ReservedChunks) (written : Nat) (request : Option Nat)
      (hphase : call.phase = .writing chunks written request) :
      Moves state id call (.fail other) (.dropping chunks .failed) ({ state with
        requests := request.elim state.requests fun found => state.requests.erase found }.setPhase
          id call (.dropping chunks .failed))
  | cancelled (other : Nat) (chunks : ReservedChunks) (written : Nat) (request : Option Nat)
      (hphase : call.phase = .writing chunks written request) :
      Moves state id call (.cancel other) (.dropping chunks (.cancelled request))
        (state.setPhase id call (.dropping chunks (.cancelled request)))
  | published (other : Nat) (chunks : ReservedChunks) (shard : DiskCacheShard)
      (published : List EntryMetadata) (hphase : call.phase = .publishing chunks)
      (hpublish : state.shard.publishPayload chunks call.batch.entries =
        .ok (some (shard, published))) :
      Moves state id call (.publish other) (.finished (.published published.length))
        ((state.advance shard (publication context call.batch chunks published)).setPhase id call
          (.finished (.published published.length)))
  | unpublished (other : Nat) (chunks : ReservedChunks) (hphase : call.phase = .publishing chunks) :
      Moves state id call (.publish other) (.dropping chunks (.published 0))
        (state.setPhase id call (.dropping chunks (.published 0)))
  | dropped (other : Nat) (chunks : ReservedChunks) (result : WriteResult)
      (hphase : call.phase = .dropping chunks result) :
      Moves state id call (.drop other) (.finished result) ((state.advance
        { state.shard with allocator := state.shard.allocator.drop chunks } []).setPhase id call
          (.finished result))

/-- What a step does. -/
inductive Performs (state : ShardState context) : Action context → ShardState context → Prop where
  /-- The action is not possible, or it belongs to a call that was not made. -/
  | idle (action : Action context)
      (hid : ∀ id, action.id? = some id → state.calls.lookup id = none) :
      Performs state action state
  | called (id : Nat) (batch : PayloadBatch context) (hnew : state.calls.lookup id = none) :
      Performs state (.call id batch) (state.called id batch)
  | moved (action : Action context) (id : Nat) (call : WriteCall context)
      (phase : WritePhase) (next : ShardState context) (hid : action.id? = some id)
      (hcall : state.calls.lookup id = some call)
      (hmoves : state.Moves id call action phase next) :
      Performs state action next
  /-- A page of a request or of the round's write reaches the file, or was there. -/
  | persisted (action : Action context) (requests : FiniteMap Nat WriteRequest)
      (round : Option (List MetadataWrite)) (file : BackingFile) (hid : action.id? = none)
      (hlog : publicationsOf file.log = publicationsOf state.file.log) :
      Performs state action { state with requests, round, file }
  | removed (key : ObjectKeyHash) (shard : DiskCacheShard)
      (hremove : state.shard.removeEntryFromIndex key = .ok shard) :
      Performs state (.remove key) (state.advance shard [])
  | shared (key : ObjectKeyHash) (read : Nat) :
      Performs state (.share key read) (state.advance (state.shard.shareRead key read) [])
  | grown (count : Nat) (shard : DiskCacheShard)
      (hgrown : state.shard.ensureFreeSlots count = .ok (some shard)) :
      Performs state (.grow count) (state.advance shard [])
  /-- The round takes the dirty pages, finishes a write, or ends. -/
  | round (action : Action context) (metadataPages : MetadataChunks)
      (round : Option (List MetadataWrite)) (hid : action.id? = none) :
      Performs state action { state with shard := { state.shard with metadataPages }, round }

/-- A step of a call is one of its moves. -/
theorem call_step_moves (h : state.callStep id call action = .ok next) :
    ∃ phase, state.Moves id call action phase next := by
  unfold callStep at h
  split at h
  next budget hphase =>
    obtain ⟨⟨shard, reserved⟩, hreserve, h⟩ := bind_eq_ok.mp h
    cases reserved with
    | none =>
        cases h
        by_cases hroom : shard.payloadChunkCapacity < call.batch.requiredChunks
        · simp only [if_pos hroom]
          exact ⟨_, .oversized _ budget shard hphase hreserve hroom⟩
        · simp only [if_neg hroom]
          exact ⟨_, .refused _ budget shard hphase hreserve hroom⟩
    | some chunks =>
        cases h
        exact ⟨_, .reserved _ budget shard chunks hphase hreserve⟩
  next score budget hphase =>
    obtain ⟨⟨sampled, shard, remaining⟩, hevict, h⟩ := bind_eq_ok.mp h
    cases h
    exact ⟨_, .evicted _ score budget sampled shard remaining hphase hevict⟩
  next request chunks written hphase =>
    cases h
    split
    next hnew => exact ⟨_, .submitted _ request chunks written hphase (by simpa using hnew)⟩
    next => exact ⟨_, .idle _ (by simp) (by simp)⟩
  next chunks written request hphase =>
    cases h
    split
    next => exact ⟨_, .completed _ chunks written request hphase⟩
    next => exact ⟨_, .idle _ (by simp) (by simp)⟩
  next chunks written request hphase =>
    cases h
    exact ⟨_, .failed _ chunks written request hphase⟩
  next chunks written request hphase =>
    cases h
    exact ⟨_, .cancelled _ chunks written request hphase⟩
  next chunks hphase =>
    obtain ⟨published, hpublish, h⟩ := bind_eq_ok.mp h
    cases published with
    | none =>
        cases h
        exact ⟨_, .unpublished _ chunks hphase⟩
    | some found =>
        cases h
        exact ⟨_, .published _ chunks found.1 found.2 hphase hpublish⟩
  next chunks result hphase =>
    cases h
    exact ⟨_, .dropped _ chunks result hphase⟩
  next hreserve hevict _ _ _ _ _ _ =>
    cases h
    exact ⟨_, .idle _ hreserve hevict⟩

/-- Every step performs one of the operations. -/
theorem step_performs (h : state.step action = .ok next) : state.Performs action next := by
  cases action with
  | call id batch =>
      cases h
      split
      next hnew => exact .called id batch (by simpa using hnew)
      next => exact .idle _ (by simp [Action.id?])
  | persist request position =>
      cases h
      split
      next found hfound =>
        rcases found.persist_cases position .payload state.file with ⟨_, -, -, hpersist⟩ | hpersist
        all_goals
          rw [hpersist]
          exact .persisted _ _ state.round _ rfl rfl
      next => exact .idle _ (by simp [Action.id?])
  | remove key =>
      obtain ⟨shard, hremove, h⟩ := bind_eq_ok.mp h
      cases h
      exact .removed key shard hremove
  | share key read =>
      cases h
      exact .shared key read
  | grow count =>
      obtain ⟨grown, hgrown, h⟩ := bind_eq_ok.mp h
      cases grown with
      | none =>
          cases h
          exact .idle _ (by simp [Action.id?])
      | some shard =>
          cases h
          exact .grown count shard hgrown
  | startRound =>
      change state.startRoundStep = .ok next at h
      unfold startRoundStep at h
      split at h
      next =>
        cases h
        exact .idle _ (by simp [Action.id?])
      next =>
        obtain ⟨⟨metadataPages, writes⟩, -, h⟩ := bind_eq_ok.mp h
        cases h
        exact .round _ metadataPages _ rfl
  | persistMetadata position =>
      cases h
      unfold persistMetadataStep
      split
      next write rest hround =>
        rcases write.request.persist_cases position .metadata state.file with
          ⟨_, -, -, hpersist⟩ | hpersist
        all_goals
          rw [hpersist]
          exact .persisted _ state.requests _ _ rfl rfl
      next => exact .idle _ (by simp [Action.id?])
  | completeMetadata =>
      change state.completeMetadataStep = .ok next at h
      unfold completeMetadataStep at h
      split at h
      next =>
        split at h
        next =>
          obtain ⟨metadataPages, -, h⟩ := bind_eq_ok.mp h
          cases h
          exact .round _ metadataPages _ rfl
        next =>
          cases h
          exact .idle _ (by simp [Action.id?])
      next =>
        cases h
        exact .idle _ (by simp [Action.id?])
  | failMetadata =>
      cases h
      exact .round _ state.shard.metadataPages none rfl
  | reserve id | evict id _ | submit id _ | complete id | fail id | cancel id | publish id
  | drop id =>
      simp only [step, Action.id?] at h
      split at h
      next call hcall =>
        obtain ⟨phase, hmoves⟩ := call_step_moves h
        exact .moved _ id call phase next rfl hcall hmoves
      next hnone =>
        cases h
        exact .idle _ (by simpa [Action.id?] using hnone)

/-! ## Calls -/

/-- A call's own step changes its phase and no other call. -/
theorem Moves.calls {phase : WritePhase} (h : state.Moves id call action phase next)
    (hcall : state.calls.lookup id = some call) (other : Nat) :
    next.calls.lookup other =
      if other = id then some { call with phase } else state.calls.lookup other := by
  cases h with
  | idle =>
      split
      next hother => rw [hother, hcall]
      next => rfl
  | _ => exact FiniteMap.lookup_insert_eq _ _ _ _

/-- A step belongs to the call and moves it, or leaves it as it is. -/
theorem Performs.call_cases (h : state.Performs action next)
    (hcall : state.calls.lookup id = some call) :
    action.id? = some id ∧ (∃ phase, state.Moves id call action phase next) ∨
      action.id? ≠ some id ∧ next.calls.lookup id = some call := by
  cases h with
  | idle _ hidle =>
      refine .inr ⟨fun hid => ?_, hcall⟩
      rw [hidle id hid] at hcall
      cases hcall
  | called other batch hnew =>
      refine .inr ⟨by simp [Action.id?], ?_⟩
      rw [lookup_called, if_neg, hcall]
      rintro rfl
      rw [hnew] at hcall
      cases hcall
  | moved _ other found phase _ hid hfound hmoves =>
      by_cases hother : other = id
      · subst hother
        obtain rfl : found = call := Option.some.inj (hfound.symm.trans hcall)
        exact .inl ⟨hid, phase, hmoves⟩
      · refine .inr ⟨by simpa [hid] using hother, ?_⟩
        rw [hmoves.calls hfound, if_neg (Ne.symm hother), hcall]
  | removed | shared | grown => exact .inr ⟨by simp [Action.id?], hcall⟩
  | persisted _ _ _ _ hid | round _ _ _ hid => exact .inr ⟨by simp [hid], hcall⟩

/-- A call stays, with the batch it was made with. -/
theorem Performs.call_kept (h : state.Performs action next)
    (hcall : state.calls.lookup id = some call) :
    ∃ phase, next.calls.lookup id = some { call with phase } := by
  rcases h.call_cases hcall with ⟨-, phase, hmoves⟩ | ⟨-, hkept⟩
  · exact ⟨phase, by rw [hmoves.calls hcall, if_pos rfl]⟩
  · exact ⟨call.phase, hkept⟩

/-! ## Publications -/

/-- Only a publication adds to the publications of the log. -/
theorem Performs.publications (h : state.Performs action next)
    (hpublish : ∀ id, action ≠ .publish id) :
    publicationsOf next.file.log = publicationsOf state.file.log := by
  cases h with
  | idle | called | round => rfl
  | persisted _ _ _ _ _ hlog => exact hlog
  | removed | shared | grown => exact publications_of_advance state _ []
  | moved _ id call phase _ _ _ hmoves =>
      cases hmoves with
      | idle | submitted | completed | failed | cancelled => rfl
      | reserved | refused | oversized | evicted | dropped =>
          exact publications_of_advance state _ []
      | published | unpublished => exact absurd rfl (hpublish _)

/-! ## Metadata rounds -/

/-- A step of the round moves no call and publishes nothing. -/
theorem Performs.of_round (h : state.Performs action next) (hround : action.OfRound) :
    next.calls = state.calls ∧ publicationsOf next.file.log = publicationsOf state.file.log := by
  cases h with
  | idle | round => exact ⟨rfl, rfl⟩
  | persisted _ _ _ _ _ hlog => exact ⟨rfl, hlog⟩
  | called | removed | shared | grown => cases hround
  | moved _ id call phase _ hid =>
      cases action <;> simp [Action.OfRound, Action.id?] at hround hid

end ShardState

end Feuer.Storage
